import Mathlib.Data.List.Induction
import StraightLine.Proofs.Acceptance
import StraightLine.Table.Lemmas
set_option autoImplicit false

namespace StraightLine

open Control Grammar

namespace Grammar

/-- The tokens finish these statements, and may have begun another one. -/
def Finishes (ts : List Token) (ss : List Statement) : Prop :=
  ∃ program begun, ts = program ++ begun ∧ Program program ss ∧ .mark .semicolon ∉ begun

theorem Program.nil_or_semicolon {ts : List Token} {ss : List Statement} (h : Program ts ss) :
    ts = [] ∨ ∃ front, ts = front ++ [.mark .semicolon] := by
  induction h with
  | nil => exact .inl rfl
  | cons first more ih =>
    right
    rcases ih with rfl | ⟨front, rfl⟩
    · cases first with
      | @mk x ts e h => exact ⟨.name x :: .mark .assign :: ts, by simp⟩
    · exact ⟨_, (List.append_assoc _ _ _).symm⟩

end Grammar

theorem Table.isSome_get?_assign {t : Table} {x y : String} {v : Int64} :
    ((t.assign x v).get? y).isSome = true ↔ x = y ∨ (t.get? y).isSome = true := by
  rw [Table.get?_assign]
  split
  next same => simp [same]
  next other => simp [other]

theorem Statement.isSome_get?_executeAll {ss : List Statement} {t result : Table}
    (h : Statement.executeAll t ss = some result) (y : String) :
    (result.get? y).isSome = true ↔
      (t.get? y).isSome = true ∨ ∃ s ∈ ss, s.target = y := by
  induction ss generalizing t with
  | nil =>
    cases h
    simp
  | cons s ss ih =>
    rw [Statement.executeAll, List.foldlM_cons] at h
    obtain ⟨next, first, more⟩ := Option.bind_eq_some_iff.1 h
    obtain ⟨v, -, rfl⟩ := Option.map_eq_some_iff.1 first
    rw [ih more, Table.isSome_get?_assign]
    simp only [List.mem_cons, exists_eq_or_imp]
    rw [or_comm (a := s.target = y), or_assoc]

namespace Control

/-- Only a semicolon changes the table, and it ends a statement. -/
theorem step?_cases {c c' : Control} {table table' : Table} {t : Token}
    (h : c.step? table t = some (table', c')) :
    (t = .mark .semicolon ∧ c' = target) ∨ (t ≠ .mark .semicolon ∧ table' = table) := by
  revert h
  fun_cases step? table c t with
  | case4 x frames y =>
    intro h
    obtain ⟨value, -, same⟩ := Option.map_eq_some_iff.1 h
    cases same
    exact .inr ⟨by simp, rfl⟩
  | case13 =>
    rintro ⟨⟩
    exact .inl ⟨rfl, rfl⟩
  | case12 | case14 | case15 => exact fun impossible => nomatch impossible
  | case1 | case2 | case3 | case5 | case6 | case7 | case8 | case9 | case10 | case11 =>
    rintro ⟨⟩
    exact .inr ⟨by simp, rfl⟩

theorem kind_of_step? {c c' : Control} {table table' : Table} {t : Token}
    (h : c.step? table t = some (table', c')) : t.kind ≠ .invalid ∧ t.kind ≠ .endOfInput := by
  cases t with
  | mark | name | literal => simp [Token.kind]
  | invalid => cases c <;> cases h
  | endOfInput =>
    rw [step?_endOfInput] at h
    cases h

theorem kind_of_steps? {ts : List Token} {table table' : Table} {c c' : Control}
    (h : steps? table c ts = some (table', c')) :
    ∀ t ∈ ts, t.kind ≠ .invalid ∧ t.kind ≠ .endOfInput := by
  induction ts generalizing table c with
  | nil => simp
  | cons t ts ih =>
    rw [steps?_cons] at h
    obtain ⟨next, first, more⟩ := Option.bind_eq_some_iff.1 h
    intro u hu
    rcases List.mem_cons.1 hu with rfl | hu
    · exact kind_of_step? first
    · exact ih more u hu

theorem table_of_steps? {ts : List Token} {table table' : Table} {c c' : Control}
    (h : steps? table c ts = some (table', c')) (none : .mark .semicolon ∉ ts) :
    table' = table := by
  induction ts generalizing table c with
  | nil =>
    cases h
    rfl
  | cons t ts ih =>
    rw [List.mem_cons, not_or] at none
    rw [steps?_cons] at h
    obtain ⟨⟨between, d⟩, first, more⟩ := Option.bind_eq_some_iff.1 h
    obtain ⟨rfl, -⟩ | ⟨-, rfl⟩ := step?_cases first
    · exact absurd rfl none.1
    · exact ih more none.2

theorem steps?_split {ts : List Token} {table : Table} {c : Control}
    (h : steps? .empty target ts = some (table, c)) :
    ∃ program begun, ts = program ++ begun ∧ .mark .semicolon ∉ begun ∧
      ∃ between, steps? .empty target program = some (between, target) := by
  -- From the right, since the last token says whether a statement has just been finished.
  induction ts using List.reverseRecOn generalizing table c with
  | nil => exact ⟨[], [], rfl, by simp, .empty, rfl⟩
  | append_singleton ts t ih =>
    have whole := h
    rw [steps?_append] at h
    obtain ⟨⟨between, d⟩, first, last⟩ := Option.bind_eq_some_iff.1 h
    rw [steps?_singleton] at last
    obtain ⟨rfl, rfl⟩ | ⟨other, -⟩ := step?_cases last
    · exact ⟨ts ++ [.mark .semicolon], [], by simp, by simp, table, whole⟩
    · obtain ⟨program, begun, rfl, none, completed⟩ := ih first
      refine ⟨program, begun ++ [t], by simp, ?_, completed⟩
      simp [none, other.symm]

end Control

namespace TokenStream

def ofTokens : List Token → TokenStream
  | [] => finish 0
  | t :: ts => token 0 t (ofTokens ts)

@[simp] theorem sequence_ofTokens (ts : List Token) : (ofTokens ts).sequence = ts := by
  induction ts with
  | nil => rfl
  | cons t ts ih => rw [ofTokens, sequence_token, ih]

@[simp] theorem fault?_ofTokens (ts : List Token) : (ofTokens ts).fault? = none := by
  induction ts with
  | nil => rfl
  | cons t ts ih => exact ih

end TokenStream

theorem program_of_steps? {ts : List Token} {table : Table}
    (h : steps? .empty target ts = some (table, target)) : ∃ ss, Program ts ss := by
  have inside : ∀ t ∈ ts, t ≠ .endOfInput := by
    rintro t ht rfl
    exact (kind_of_steps? h _ ht).2 rfl
  cases ts with
  | nil => exact ⟨[], .nil⟩
  | cons t ts =>
    have proper : (TokenStream.ofTokens (t :: ts)).Proper := by
      simpa [TokenStream.Proper] using inside
    have accepted : target.run .empty (TokenStream.ofTokens (t :: ts)) = .ok table := by
      rw [run_eq_ok_iff proper]
      simpa using h
    obtain ⟨first, rest⟩ := TokenStream.proper_token_iff.1 proper
    -- The machine at the first of the tokens accepts them, and what it accepts is derived.
    let m : Machine := ⟨t, 0, .ofTokens ts, .empty, []⟩
    have stream : m.stream = .ofTokens (t :: ts) := Machine.stream_of_ne first
    have outcome : m.run.outcome = .ok table := by
      rw [Machine.outcome_run, runFrom, stream]
      exact accepted
    obtain ⟨-, ss, derived, -⟩ := Machine.run_reads rest outcome
    rw [stream, TokenStream.sequence_ofTokens] at derived
    exact ⟨ss, derived⟩

theorem exists_finishes {ts : List Token} {table : Table} {c : Control}
    (h : steps? .empty target ts = some (table, c)) : ∃ ss, Finishes ts ss := by
  obtain ⟨program, begun, rfl, none, between, steps⟩ := steps?_split h
  obtain ⟨ss, derived⟩ := program_of_steps? steps
  exact ⟨ss, program, begun, rfl, derived, none⟩

theorem isSome_get?_iff_of_finishes {ts : List Token} {ss : List Statement} {table : Table}
    {c : Control} (h : steps? .empty target ts = some (table, c)) (finished : Finishes ts ss)
    (x : String) : (table.get? x).isSome = true ↔ ∃ s ∈ ss, s.target = x := by
  obtain ⟨program, begun, rfl, derived, none⟩ := finished
  rw [steps?_append, derived.steps] at h
  obtain ⟨⟨between, d⟩, first, more⟩ := Option.bind_eq_some_iff.1 h
  obtain ⟨executed, done, same⟩ := Option.map_eq_some_iff.1 first
  cases same
  rw [table_of_steps? more none, Statement.isSome_get?_executeAll done]
  simp [Table.get?, Table.empty]

end StraightLine
