import StraightLine.Grammar
import StraightLine.Proofs.Postcondition
import StraightLine.Proofs.Tokenisation
set_option autoImplicit false

namespace StraightLine.Machine

open Grammar

inductive Passes : Machine → List Token → Machine → Prop where
  | refl (m : Machine) : Passes m [] m
  | next {m n last : Machine} {ts : List Token} {h : m.current ≠ .endOfInput}
      {fewer : n.remaining < m.remaining} (step : m.advance h = .ok () n fewer)
      (more : Passes n ts last) : Passes m (m.current :: ts) last

theorem Passes.trans {m n last : Machine} {ts us : List Token} (h : m.Passes ts n)
    (h' : n.Passes us last) : m.Passes (ts ++ us) last := by
  induction h with
  | refl _ => exact h'
  | next step _ ih => exact .next step (ih h')

theorem table_of_advance {m n : Machine} {h : m.current ≠ .endOfInput}
    {fewer : n.remaining < m.remaining} (step : m.advance h = .ok () n fewer) :
    n.table = m.table := by
  unfold advance at step
  split at step <;> cases step <;> rfl

theorem Passes.table_eq {m n : Machine} {ts : List Token} (h : m.Passes ts n) :
    n.table = m.table := by
  induction h with
  | refl _ => rfl
  | next step _ ih => exact ih.trans (table_of_advance step)

theorem advance_passes (m : Machine) {t : Token} (current : m.current = t)
    (h : m.current ≠ .endOfInput) :
    (m.advance h).Ensures (fun _ n => m.Passes [t] n) (fun _ _ => True) := by
  subst current
  cases step : m.advance h with
  | ok value n fewer => exact .next step (.refl n)
  | error e last => trivial

theorem expect_passes (m : Machine) (mark : Mark) :
    (m.expect mark).Ensures (fun _ n => m.Passes [.mark mark] n) (fun _ _ => True) := by
  unfold expect
  split
  next here => exact advance_passes m here _
  · trivial

/-- After the tokens `us`, what was read from `m` to `n` completes a text of a part of the grammar,
and `v` is its value. -/
def Completes (part : List Token → Expr → Prop) (us : List Token) (m : Machine) (v : Int64)
    (n : Machine) : Prop :=
  ∃ ts e, part (us ++ ts) e ∧ m.Passes ts n ∧ e.eval m.table = some v

theorem Completes.after {part : List Token → Expr → Prop} {us ts : List Token}
    {m n last : Machine} {v : Int64} (moved : m.Passes ts n)
    (h : Completes part (us ++ ts) n v last) : Completes part us m v last := by
  obtain ⟨ts', e, derived, more, value⟩ := h
  rw [List.append_assoc] at derived
  rw [moved.table_eq] at value
  exact ⟨ts ++ ts', e, derived, moved.trans more, value⟩

mutual

theorem factor_reads (m : Machine) : m.factor.Ensures (Completes Factor [] m) (fun _ _ => True) := by
  rw [factor]
  split
  next digits value current =>
    refine ((advance_passes m current _).imp ?_).map
    intro _ n passed
    exact ⟨_, _, .literal digits value, passed, rfl⟩
  next y current =>
    split
    next value bound =>
      refine ((advance_passes m current _).imp ?_).map
      intro _ n passed
      exact ⟨_, _, .name y, passed, bound⟩
    · trivial
  next current =>
    refine (advance_passes m current _).andThen ?_
    intro _ n fewer passed
    refine (factor_reads n).imp ?_
    rintro v last ⟨ts, e, derived, more, value⟩
    rw [passed.table_eq] at value
    exact ⟨_, _, .plus derived, passed.trans more, value⟩
  next current =>
    refine Step.Ensures.map ?_
    refine (advance_passes m current _).andThen ?_
    intro _ n fewer passed
    refine (factor_reads n).imp ?_
    rintro v last ⟨ts, e, derived, more, value⟩
    rw [passed.table_eq] at value
    exact ⟨_, _, .minus derived, passed.trans more, by rw [Expr.eval_minus, value]; rfl⟩
  next current =>
    refine (advance_passes m current _).andThen ?_
    intro _ n fewer passed
    refine (expression_reads n).andThen ?_
    rintro v n' fewer' ⟨ts, e, derived, more, value⟩
    refine ((expect_passes n' .rightParen).imp ?_).map
    intro _ last close
    rw [passed.table_eq] at value
    exact ⟨_, _, .group derived, passed.trans (more.trans close), value⟩
  · trivial
termination_by 3 * m.remaining

theorem termTail_reads (m : Machine) (product : Int64) {us : List Token} {a : Expr} {first : Int64}
    (ha : Term us a) (va : a.eval m.table = some (first * product)) :
    (m.termTail product).Ensures
      (fun v n => Completes Term us m (first * v) n) (fun _ _ => True) := by
  rw [termTail]
  split
  next current =>
    refine Step.Ensures.weaken ?_
    refine (advance_passes m current _).andThen ?_
    intro _ n fewer passed
    refine (factor_reads n).followedBy ?_
    rintro v n' fewer' ⟨ts, e, derived, more, value⟩
    have moved := passed.trans more
    rw [passed.table_eq] at value
    have grown : (a.mul e).eval n'.table = some (first * (product * v)) := by
      rw [moved.table_eq, Expr.eval_mul, va, value, Option.bind_some, Option.map_some,
        Int64.mul_assoc]
    exact (termTail_reads n' (product * v) (.mul ha derived) grown).imp
      fun _ _ tail => tail.after moved
  · exact ⟨[], a, by simpa using ha, .refl m, va⟩
termination_by 3 * m.remaining

theorem term_reads (m : Machine) : m.term.Ensures (Completes Term [] m) (fun _ _ => True) := by
  rw [term]
  refine (factor_reads m).followedBy ?_
  rintro v n fewer ⟨us, a, derived, passed, value⟩
  have start : a.eval n.table = some (v * 1) := by
    rw [passed.table_eq, value, Int64.mul_one]
  exact ((termTail_reads n 1 (.factor derived) start).imp
    fun _ _ tail => tail.after passed).map
termination_by 3 * m.remaining + 1

theorem expressionTail_reads (m : Machine) (sum : Int64) {us : List Token} {a : Expr}
    {first : Int64} (ha : Expression us a) (va : a.eval m.table = some (first + sum)) :
    (m.expressionTail sum).Ensures
      (fun v n => Completes Expression us m (first + v) n) (fun _ _ => True) := by
  rw [expressionTail]
  split
  next current =>
    refine Step.Ensures.weaken ?_
    refine (advance_passes m current _).andThen ?_
    intro _ n fewer passed
    refine (term_reads n).followedBy ?_
    rintro v n' fewer' ⟨ts, e, derived, more, value⟩
    have moved := passed.trans more
    rw [passed.table_eq] at value
    have grown : (a.add e).eval n'.table = some (first + (sum + v)) := by
      rw [moved.table_eq, Expr.eval_add, va, value, Option.bind_some, Option.map_some,
        Int64.add_assoc]
    exact (expressionTail_reads n' (sum + v) (.add ha derived) grown).imp
      fun _ _ tail => tail.after moved
  · split
    next current =>
      refine Step.Ensures.weaken ?_
      refine (advance_passes m current _).andThen ?_
      intro _ n fewer passed
      refine (term_reads n).followedBy ?_
      rintro v n' fewer' ⟨ts, e, derived, more, value⟩
      have moved := passed.trans more
      rw [passed.table_eq] at value
      have grown : (a.sub e).eval n'.table = some (first + (sum + -v)) := by
        rw [moved.table_eq, Expr.eval_sub, va, value, Option.bind_some, Option.map_some,
          Int64.sub_eq_add_neg, Int64.add_assoc]
      exact (expressionTail_reads n' (sum + -v) (.sub ha derived) grown).imp
        fun _ _ tail => tail.after moved
    · exact ⟨[], a, by simpa using ha, .refl m, va⟩
termination_by 3 * m.remaining

theorem expression_reads (m : Machine) :
    m.expression.Ensures (Completes Expression [] m) (fun _ _ => True) := by
  rw [expression]
  refine (term_reads m).followedBy ?_
  rintro v n fewer ⟨us, a, derived, passed, value⟩
  have start : a.eval n.table = some (v + 0) := by
    rw [passed.table_eq, value, Int64.add_zero]
  exact ((expressionTail_reads n 0 (.term derived) start).imp
    fun _ _ tail => tail.after passed).map
termination_by 3 * m.remaining + 2

end

theorem statement_reads (m : Machine) :
    m.statement.Ensures
      (fun _ n => ∃ ts s v last, Assignment ts s ∧ m.Passes ts last ∧
        s.source.eval m.table = some v ∧ n = last.assign s.target v)
      (fun _ _ => True) := by
  unfold statement
  split
  next x current =>
    refine (advance_passes m current _).andThen ?_
    intro _ n₁ _ name
    refine (expect_passes n₁ .assign).andThen ?_
    intro _ n₂ _ equals
    refine (expression_reads n₂).andThen ?_
    rintro v n₃ _ ⟨ts, e, derived, passed, value⟩
    refine (expect_passes n₃ .semicolon).followedBy ?_
    intro _ last _ semicolon
    rw [equals.table_eq, name.table_eq] at value
    exact ⟨_, ⟨x, e⟩, v, last, .mk derived, name.trans (equals.trans (passed.trans semicolon)),
      value, rfl⟩
  · trivial

end StraightLine.Machine
