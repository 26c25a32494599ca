import StraightLine.Proofs.Derivation
import StraightLine.Proofs.Reading
import StraightLine.Proofs.Simulation
set_option autoImplicit false

namespace StraightLine

open Control Grammar

theorem Token.WellFormed.ne_endOfInput {t : Token} (h : t.WellFormed) : t ≠ .endOfInput := by
  rintro rfl
  exact h.spelled

namespace TokenStream

def Proper (s : TokenStream) : Prop :=
  ∀ t ∈ s.sequence, t ≠ .endOfInput

theorem proper_ofText (offset : Nat) (text : List Char) : (ofText offset text).Proper :=
  fun t ht => ((tokenisation_ofText offset text).wellFormed t ht).ne_endOfInput

theorem proper_ofSource (source : String) : (ofSource source).Proper :=
  proper_ofText 0 (strip source)

theorem proper_token_iff {position : Nat} {t : Token} {rest : TokenStream} :
    (token position t rest).Proper ↔ t ≠ .endOfInput ∧ rest.Proper := by
  simp [Proper]

end TokenStream

theorem Control.run_eq_ok_iff {c : Control} {table result : Table} {s : TokenStream}
    (proper : s.Proper) :
    c.run table s = .ok result ↔
      s.fault? = none ∧ steps? table c s.sequence = some (result, target) := by
  induction s generalizing c table with
  | finish position =>
    cases c with
    | target => simp [Control.run, Control.finish, TokenStream.fault?]
    | equals | operand | operator => simp [Control.run, Control.finish]
  | rejected r => simp [Control.run, TokenStream.fault?]
  | token position t rest ih =>
    obtain ⟨inside, proper⟩ := TokenStream.proper_token_iff.1 proper
    rw [Control.run, if_neg inside, TokenStream.sequence_token, steps?_cons]
    cases c.step? table t with
    | none => simp
    | some next => exact ih proper

namespace Machine

theorem stream_of_advance {m n : Machine} {h : m.current ≠ .endOfInput}
    {fewer : n.remaining < m.remaining} (step : m.advance h = .ok () n fewer)
    (proper : m.ahead.Proper) :
    n.ahead.Proper ∧ m.stream.sequence = m.current :: n.stream.sequence ∧
      m.stream.fault? = n.stream.fault? := by
  rw [stream_of_ne h]
  unfold advance at step
  split at step
  next position ahead =>
    cases step
    refine ⟨proper, ?_, ?_⟩ <;> rw [ahead] <;> rfl
  next r ahead => cases step
  next position t rest ahead =>
    cases step
    rw [ahead] at proper ⊢
    obtain ⟨inside, proper⟩ := TokenStream.proper_token_iff.1 proper
    rw [stream_of_ne inside]
    exact ⟨proper, rfl, rfl⟩

theorem Passes.stream_eq {m n : Machine} {ts : List Token} (h : m.Passes ts n)
    (proper : m.ahead.Proper) :
    n.ahead.Proper ∧ m.stream.sequence = ts ++ n.stream.sequence ∧
      m.stream.fault? = n.stream.fault? := by
  induction h with
  | refl m => exact ⟨proper, rfl, rfl⟩
  | next step _ ih =>
    obtain ⟨proper, sequence, fault⟩ := stream_of_advance step proper
    obtain ⟨proper', sequence', fault'⟩ := ih proper
    refine ⟨proper', ?_, fault.trans fault'⟩
    rw [sequence, sequence']
    rfl

theorem run_reads {m : Machine} {result : Table} (proper : m.ahead.Proper)
    (h : m.run.outcome = .ok result) :
    m.stream.fault? = none ∧ ∃ ss, Program m.stream.sequence ss ∧
      Statement.executeAll m.table ss = some result := by
  fun_induction run m with
  | case1 m last =>
    rw [stream_of_endOfInput last]
    cases h
    exact ⟨rfl, [], .nil, rfl⟩
  | case2 m inside next fewer done ih =>
    have read := statement_reads m
    rw [done] at read
    obtain ⟨ts, s, v, last, derived, passed, value, rfl⟩ := read
    obtain ⟨proper', sequence, fault⟩ := passed.stream_eq proper
    obtain ⟨fault', ss, more, executed⟩ := ih proper' h
    refine ⟨fault.trans fault', s :: ss, ?_, ?_⟩
    · rw [sequence]
      exact .cons derived more
    · have first : s.execute m.table = some (last.assign s.target v).table := by
        rw [Statement.execute, value, ← passed.table_eq]
        rfl
      rw [Statement.executeAll, List.foldlM_cons, first]
      exact executed
  | case3 m inside e last failed => cases h

theorem start_reads {source : String} {m : Machine} (h : start (.ofSource source) = .ok m) :
    m.table = .empty ∧ m.ahead.Proper ∧ m.stream = .ofSource source := by
  have proper := TokenStream.proper_ofSource source
  cases stream : TokenStream.ofSource source with
  | finish position =>
    rw [stream] at h
    cases h
    exact ⟨rfl, by simp [TokenStream.Proper], rfl⟩
  | rejected r =>
    rw [stream] at h
    cases h
  | token position t rest =>
    rw [stream] at h proper
    cases h
    obtain ⟨inside, proper⟩ := TokenStream.proper_token_iff.1 proper
    exact ⟨rfl, proper, stream_of_ne inside⟩

end Machine

theorem exists_start_of_interpret {source : String} {result : Table}
    (h : interpret source = .ok result) :
    ∃ m, Machine.start (.ofSource source) = .ok m ∧ m.run.outcome = .ok result := by
  unfold interpret Run.ofSource Run.ofStream at h
  cases start : Machine.start (.ofSource source) with
  | ok m =>
    rw [start] at h
    exact ⟨m, rfl, h⟩
  | error r =>
    rw [start] at h
    cases h

theorem program_of_interpret {source : String} {result : Table}
    (h : interpret source = .ok result) :
    (TokenStream.ofSource source).fault? = none ∧
      ∃ ss, Program (TokenStream.ofSource source).sequence ss ∧
        Statement.executeAll .empty ss = some result := by
  obtain ⟨m, start, outcome⟩ := exists_start_of_interpret h
  obtain ⟨table, proper, stream⟩ := Machine.start_reads start
  rw [← stream, ← table]
  exact Machine.run_reads proper outcome

theorem executeAll_of_interpret {source : String} {result : Table} {ss : List Statement}
    (h : interpret source = .ok result) (derived : Program (TokenStream.ofSource source).sequence ss) :
    Statement.executeAll .empty ss = some result := by
  rw [interpret_eq_run] at h
  obtain ⟨-, steps⟩ := (run_eq_ok_iff (TokenStream.proper_ofSource source)).1 h
  have driven := derived.steps .empty
  rw [steps] at driven
  cases executed : Statement.executeAll .empty ss with
  | none =>
    rw [executed] at driven
    cases driven
  | some t =>
    rw [executed] at driven
    cases driven
    rfl

end StraightLine
