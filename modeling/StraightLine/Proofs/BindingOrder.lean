import StraightLine.Proofs.Completion
import StraightLine.Proofs.Histories
import StraightLine.Proofs.StatementEffects
set_option autoImplicit false

namespace StraightLine

open Control

def Token.names (ts : List Token) : List String :=
  (ts.filter (·.kind = .name)).map lexeme

namespace Token

@[simp] theorem names_nil : names [] = [] := rfl

@[simp] theorem names_name (x : String) (ts : List Token) : names (name x :: ts) = x :: names ts :=
  rfl

@[simp] theorem names_mark (m : Mark) (ts : List Token) : names (mark m :: ts) = names ts := rfl

@[simp] theorem names_append (ts us : List Token) : names (ts ++ us) = names ts ++ names us := by
  simp [names]

end Token

namespace Control

/-- The names that have a value once the statement that was begun is finished. Which value that is
plays no part. -/
def bound (table : Table) : Control → List String
  | target => table.toList.map Prod.fst
  | equals x | operand x _ | operator x _ _ => (table.assign x 0).toList.map Prod.fst

theorem bound_resume (table : Table) (x : String) (value : Int64) (frames : List Frame) :
    (resume x value frames).bound table = (table.assign x 0).toList.map Prod.fst := by
  obtain ⟨total, outer, resumed, -⟩ := resume_eq_operator x value frames
  rw [resumed, bound]

/-- A token adds a name only where a statement begins. -/
theorem bound_step? {c c' : Control} {table table' : Table} {t : Token} {seen : List String}
    (h : c.step? table t = some (table', c')) (before : seen.eraseDups = c.bound table) :
    (seen ++ Token.names [t]).eraseDups = c'.bound table' := by
  have unchanged : (seen ++ []).eraseDups = seen.eraseDups := by rw [List.append_nil]
  revert h before
  fun_cases step? table c t with
  | case1 x =>
    rintro ⟨⟩ before
    rw [bound] at before
    have seen_iff : x ∈ seen ↔ x ∈ table.toList.map Prod.fst := by
      rw [← List.mem_eraseDups, before]
    calc (seen ++ [x]).eraseDups
        = if x ∈ seen then seen.eraseDups else seen.eraseDups ++ [x] := eraseDups_concat seen x
      _ = (table.assign x 0).toList.map Prod.fst := by
        simp only [seen_iff, before, Table.names_assign]
  | case4 x frames y =>
    intro h before
    obtain ⟨value, found, same⟩ := Option.map_eq_some_iff.1 h
    cases same
    -- What is read has a value, so it has been seen.
    have known : y ∈ seen := by
      rw [← List.mem_eraseDups, before, bound, Table.mem_names_iff, Table.isSome_get?_assign]
      exact .inr (by simp [found])
    rw [bound_resume]
    exact ((eraseDups_concat seen y).trans (if_pos known)).trans before
  | case13 x value frames total settled =>
    rintro ⟨⟩ before
    rw [bound, Table.names_assign] at before
    rw [bound, Table.names_assign, ← before]
    exact unchanged
  | case3 x frames digits value | case11 x value frames total outer settled =>
    rintro ⟨⟩ before
    rw [bound_resume]
    exact unchanged.trans before
  | case2 | case5 | case6 | case7 | case8 | case9 | case10 =>
    rintro ⟨⟩ before
    exact unchanged.trans before
  | case12 | case14 | case15 => rintro ⟨⟩

theorem bound_steps? {ts : List Token} {c c' : Control} {table table' : Table}
    {seen : List String} (h : steps? table c ts = some (table', c'))
    (before : seen.eraseDups = c.bound table) :
    (seen ++ Token.names ts).eraseDups = c'.bound table' := by
  induction ts generalizing table c seen with
  | nil =>
    cases h
    exact (congrArg List.eraseDups (List.append_nil seen)).trans before
  | cons t ts ih =>
    rw [steps?_cons] at h
    obtain ⟨⟨between, d⟩, first, more⟩ := Option.bind_eq_some_iff.1 h
    have all := ih more (bound_step? first before)
    rwa [List.append_assoc, ← Token.names_append] at all

end Control

theorem names_of_interpret {source : String} {table : Table} (h : interpret source = .ok table) :
    table.toList.map Prod.fst =
      (Token.names (TokenStream.ofSource source).sequence).eraseDups := by
  rw [interpret_eq_run] at h
  obtain ⟨-, steps⟩ := (run_eq_ok_iff (TokenStream.proper_ofSource source)).1 h
  have start : ([] : List String).eraseDups = target.bound .empty := rfl
  exact (bound_steps? steps start).symm

namespace Machine

def after? (m : Machine) : Nat → Option Machine
  | 0 => some m
  | count + 1 =>
    match m.statement with
    | .ok () next _ => next.after? count
    | .error _ _ => none

theorem after?_add (m : Machine) (i j : Nat) :
    m.after? (i + j) = (m.after? i).bind fun n => n.after? j := by
  induction i generalizing m with
  | zero => rw [Nat.zero_add, after?, Option.bind_some]
  | succ i ih =>
    rw [Nat.add_right_comm, after?, after?]
    cases m.statement with
    | ok value next fewer => exact ih next
    | error e last => rfl

theorem names_of_statement {m next : Machine} {fewer : next.remaining < m.remaining}
    (h : m.statement = .ok () next fewer) :
    m.table.toList.map Prod.fst <+: next.table.toList.map Prod.fst := by
  have read := statement_reads m
  rw [h] at read
  obtain ⟨ts, s, v, last, -, passed, -, rfl⟩ := read
  change _ <+: (last.table.assign s.target v).toList.map Prod.fst
  rw [passed.table_eq, Table.names_assign]
  split
  · exact List.prefix_rfl
  · exact List.prefix_append _ _

theorem names_of_after? {m last : Machine} {count : Nat} (h : m.after? count = some last) :
    m.table.toList.map Prod.fst <+: last.table.toList.map Prod.fst := by
  induction count generalizing m with
  | zero =>
    cases h
    exact List.prefix_rfl
  | succ count ih =>
    rw [after?] at h
    split at h
    next n fewer done => exact (names_of_statement done).trans (ih h)
    · cases h

theorem after?_of_run {m : Machine} {result : Table} (proper : m.ahead.Proper)
    (h : m.run.outcome = .ok result) :
    ∃ last, m.after? (m.stream.sequence.count (.mark .semicolon)) = some last ∧
      last.current = .endOfInput ∧ last.table = result := by
  fun_induction run m with
  | case1 m ended =>
    cases h
    refine ⟨m, ?_, ended, rfl⟩
    rw [stream_of_endOfInput ended]
    rfl
  | case2 m inside next fewer done ih =>
    have read := statement_reads m
    rw [done] at read
    obtain ⟨ts, s, v, passing, derived, passed, -, rfl⟩ := read
    obtain ⟨proper', sequence, -⟩ := passed.stream_eq proper
    obtain ⟨last, more, ended, table⟩ := ih proper' h
    obtain ⟨body, rfl, inner⟩ := derived.exists_body
    refine ⟨last, ?_, ended, table⟩
    have count : m.stream.sequence.count (.mark .semicolon) =
        passing.stream.sequence.count (.mark .semicolon) + 1 := by
      rw [sequence, List.append_assoc, List.count_append, List.count_eq_zero.2 inner,
        List.singleton_append, List.count_cons_self, Nat.zero_add]
    rw [count, after?, done]
    exact more
  | case3 m inside e last failed => cases h

end Machine

-- A name keeps the place where it first appeared, whether it is read or assigned again there.
example : (interpret "b = 1; a = b; b = a + b;").map (·.toList.map Prod.fst) =
    .ok ["b", "a"] := by
  decide +kernel

end StraightLine
