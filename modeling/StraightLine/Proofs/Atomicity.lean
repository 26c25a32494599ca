import StraightLine.Proofs.AssignmentHistory
set_option autoImplicit false

namespace StraightLine

theorem Step.Upholds.machine {α : Type} {b : Nat} {I : Machine → Prop} {s : Step b α}
    (h : s.Upholds I) : I s.machine := by
  cases s with
  | ok value next fewer => exact h
  | error e last => exact h.1

namespace Machine

open Grammar

theorem carried_table (table : Table) : Carried fun n => n.table = table :=
  fun same _ passed => passed.table_eq.trans same

/-- The tokens of a whole statement lie between two machines, and the second one has stored what
the right-hand side is worth in the table of the first. -/
structure Executes (m next : Machine) (x : String) (ts : List Token) (v : Int64) : Prop where
  target : m.current = .name x
  passes : ∃ last, m.Passes (.name x :: .mark .assign :: (ts ++ [.mark .semicolon])) last ∧
    next = last.assign x v
  derived : ∃ e, Expression ts e
  value : ∀ e, Expression ts e → e.eval m.table = some v
  stored : next.table = m.table.assign x v

theorem executes_of_statement {m next : Machine} {fewer : next.remaining < m.remaining}
    (h : m.statement = .ok () next fewer) : ∃ x ts v, m.Executes next x ts v := by
  have read := statement_reads m
  rw [h] at read
  obtain ⟨ts, s, v, last, derived, passed, value, rfl⟩ := read
  cases derived with
  | @mk x ts e derived =>
    have target : m.current = .name x := by
      generalize whole : Token.name x :: .mark .assign :: (ts ++ [.mark .semicolon]) = us at passed
      cases passed with
      | refl => cases whole
      | next => exact (List.cons.inj whole).1.symm
    refine ⟨x, ts, v, target, ⟨last, passed, rfl⟩, ⟨e, derived⟩, ?_, ?_⟩
    · intro e' other
      rw [other.eval_unique derived]
      exact value
    · rw [← passed.table_eq]
      rfl

/-- Only a statement that succeeds changes the table, and it changes it by one assignment. -/
theorem statement_atomic (m : Machine) :
    m.factor.machine.table = m.table ∧
    (∀ product, (m.termTail product).machine.table = m.table) ∧
    m.term.machine.table = m.table ∧
    (∀ sum, (m.expressionTail sum).machine.table = m.table) ∧
    m.expression.machine.table = m.table ∧
    (∀ e last, m.statement = .error e last → last.table = m.table) ∧
    ∀ next fewer, m.statement = .ok () next fewer → ∃ x ts v, m.Executes next x ts v := by
  have carried : Carried fun n => n.table = m.table := carried_table m.table
  refine ⟨(factor_upholds carried m rfl).machine,
    fun product => (termTail_upholds carried m rfl product).machine,
    (term_upholds carried m rfl).machine,
    fun sum => (expressionTail_upholds carried m rfl sum).machine,
    (expression_upholds carried m rfl).machine, ?_, fun next fewer => executes_of_statement⟩
  intro e last failed
  have begun := statement_begins m
  rw [failed] at begun
  obtain ⟨⟨us, passed, -⟩, -⟩ := begun
  exact passed.table_eq

-- The semicolon is there, but the literal after it keeps the statement from ending.
example : (Machine.start (.ofSource "x = 1; 007")).toOption.map (fun m =>
    (m.statement.result.toOption, m.statement.machine.current, m.statement.machine.table)) =
      some (none, .mark .semicolon, .empty) := by
  decide +kernel

end Machine

end StraightLine
