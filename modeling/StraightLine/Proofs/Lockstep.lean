import StraightLine.Proofs.Acceptance
set_option autoImplicit false

/-! # Two runs in step

Two programs whose tokens correspond one by one are run side by side. If what the runs have in
common makes both take the next token or both refuse it, they end in the same way and at the same
token, although that token may start elsewhere in the other text. -/

namespace StraightLine

open Control

/-- Where the token with an index starts. The end of the text, or the literal that is rejected, has
the index after the last token. -/
def TokenStream.start? : TokenStream → Nat → Option Nat
  | finish position, 0 => some position
  | rejected r, 0 => some r.position
  | token position _ _, 0 => some position
  | token _ _ rest, i + 1 => rest.start? i
  | _, _ => none

/-- What corresponds in two runs, and why it goes on to correspond. -/
structure Lockstep where
  tokens : Token → Token → Prop
  states : Table × Control → Table × Control → Prop
  causes : Cause → Cause → Prop
  ended : tokens .endOfInput .endOfInput
  target_iff : ∀ {s s'}, states s s' → (s.2 = target ↔ s'.2 = target)
  step : ∀ {s s' t t'}, states s s' → tokens t t' →
    (∃ next next', s.2.step? s.1 t = some next ∧ s'.2.step? s'.1 t' = some next' ∧
      states next next') ∨
    (s.2.step? s.1 t = none ∧ s'.2.step? s'.1 t' = none ∧
      causes (s.2.complaint t) (s'.2.complaint t'))

namespace Lockstep

inductive Streams (L : Lockstep) : TokenStream → TokenStream → Prop where
  | finish (position position' : Nat) : Streams L (.finish position) (.finish position')
  | rejected {r r' : RejectedLiteral} (h : L.causes r.toError.cause r'.toError.cause) :
      Streams L (.rejected r) (.rejected r')
  | token {position position' : Nat} {t t' : Token} {s s' : TokenStream}
      (inside : t ≠ .endOfInput) (inside' : t' ≠ .endOfInput) (h : L.tokens t t')
      (more : Streams L s s') : Streams L (.token position t s) (.token position' t' s')

inductive Outcomes (L : Lockstep) (s s' : TokenStream) :
    Except Error Table → Except Error Table → Prop where
  | accepted {table table' : Table} (h : L.states (table, target) (table', target)) :
      Outcomes L s s' (.ok table) (.ok table')
  | rejected {e e' : Error} {i : Nat} (cause : L.causes e.cause e'.cause)
      (here : s.start? i = some e.position) (there : s'.start? i = some e'.position) :
      Outcomes L s s' (.error e) (.error e')

variable {L : Lockstep}

theorem Outcomes.token {s s' : TokenStream} {o o' : Except Error Table} (h : L.Outcomes s s' o o')
    (position position' : Nat) (t t' : Token) :
    L.Outcomes (.token position t s) (.token position' t' s') o o' := by
  cases h with
  | accepted h => exact .accepted h
  | @rejected _ _ i cause here there => exact .rejected (i := i + 1) cause here there

theorem finish_outcomes {c c' : Control} {table table' : Table}
    (h : L.states (table, c) (table', c')) (position position' : Nat) :
    L.Outcomes (.finish position) (.finish position') (c.finish table position)
      (c'.finish table' position') := by
  have both : c = target ↔ c' = target := L.target_iff h
  by_cases done : c = target
  · obtain rfl := both.1 done
    subst done
    exact .accepted h
  · rw [finish_of_ne_target done, finish_of_ne_target (mt both.2 done)]
    rcases L.step h L.ended with ⟨next, _, impossible, _⟩ | ⟨_, _, cause⟩
    · rw [step?_endOfInput] at impossible
      cases impossible
    · exact .rejected (i := 0) cause rfl rfl

theorem run_outcomes {s s' : TokenStream} (streams : L.Streams s s') {c c' : Control}
    {table table' : Table} (h : L.states (table, c) (table', c')) :
    L.Outcomes s s' (c.run table s) (c'.run table' s') := by
  induction streams generalizing c c' table table' with
  | finish position position' => exact finish_outcomes h position position'
  | rejected cause => exact .rejected (i := 0) cause rfl rfl
  | @token position position' t t' s s' inside inside' same more ih =>
    rw [Control.run, Control.run, if_neg inside, if_neg inside']
    rcases L.step h same with ⟨next, next', taken, taken', states⟩ | ⟨refused, refused', cause⟩
    · change c.step? table t = some next at taken
      change c'.step? table' t' = some next' at taken'
      rw [taken, taken']
      exact (ih states).token position position' t t'
    · change c.step? table t = none at refused
      change c'.step? table' t' = none at refused'
      rw [refused, refused']
      exact .rejected (i := 0) cause rfl rfl

theorem Streams.interpret_cases {source source' : String}
    (streams : L.Streams (.ofSource source) (.ofSource source'))
    (start : L.states (.empty, target) (.empty, target)) :
    (∃ table table', interpret source = .ok table ∧ interpret source' = .ok table' ∧
      L.states (table, target) (table', target)) ∨
    ∃ e e' i, interpret source = .error e ∧ interpret source' = .error e' ∧
      L.causes e.cause e'.cause ∧ (TokenStream.ofSource source).start? i = some e.position ∧
      (TokenStream.ofSource source').start? i = some e'.position := by
  have outcomes := run_outcomes streams start
  rw [← interpret_eq_run, ← interpret_eq_run] at outcomes
  generalize interpret source = outcome, interpret source' = outcome' at outcomes ⊢
  cases outcomes with
  | @accepted table table' same => exact .inl ⟨table, table', rfl, rfl, same⟩
  | @rejected e e' i cause here there => exact .inr ⟨e, e', i, rfl, rfl, cause, here, there⟩

end Lockstep

end StraightLine
