import StraightLine.Grammar
import StraightLine.Proofs.Control
set_option autoImplicit false

namespace StraightLine.Grammar

open Control

/-- The terms of a sum are taken one after another, and settled when the next token comes. -/
theorem steps?_sum {table : Table} {x : String} {frames : List Frame} {ts us : List Token}
    {sign : Mark} {t : Token} {a b : Option Int64} (frame : Int64 → Frame)
    {op : Int64 → Int64 → Int64}
    (left : steps? table (operand x frames) (ts ++ [.mark sign]) =
      a.bind fun v => some (table, operand x (frame v :: frames)))
    (right : ∀ v, steps? table (operand x (frame v :: frames)) us =
      b.map fun w => (table, operator x w (frame v :: frames)))
    (total : ∀ v w, settle w (frame v :: frames) = (op v w, frames))
    (star : t ≠ .mark .star) :
    steps? table (operand x frames) (ts ++ .mark sign :: us ++ [t]) =
      (a.bind fun v => b.map fun w => op v w).bind fun v =>
        (operator x v frames).step? table t := by
  have split : ts ++ .mark sign :: us ++ [t] = (ts ++ [.mark sign]) ++ (us ++ [t]) := by simp
  rw [split, steps?_append, left]
  cases a with
  | none => rfl
  | some v =>
    rw [Option.bind_some, Option.bind_some, steps?_append, right]
    cases b with
    | none => rfl
    | some w =>
      rw [Option.map_some, Option.bind_some, steps?_singleton,
        step?_operator_of_settle (total v w) table x star]
      rfl

mutual

theorem Factor.steps {ts : List Token} {e : Expr} (h : Factor ts e) (table : Table) (x : String)
    (frames : List Frame) :
    steps? table (operand x frames) ts =
      (e.eval table).map fun v => (table, resume x v frames) :=
  match h with
  | .literal digits v => rfl
  | .name y => by
    simp only [steps?_cons, steps?_nil, step?, Expr.eval_name]
    cases table.get? y <;> rfl
  | .plus h => h.steps table x frames
  | .minus (e := e) h => by
    rw [steps?_cons, step?, Option.bind_some, h.steps table x (.negate :: frames), Expr.eval_minus]
    cases e.eval table <;> rfl
  | .group h => by
    have close := h.steps table x (settled_group frames) (t := .mark .rightParen) (by simp)
    rw [steps?_cons, step?, Option.bind_some, close]
    cases e.eval table <;> rfl

theorem Term.steps {ts : List Token} {e : Expr} (h : Term ts e) (table : Table) (x : String)
    {frames : List Frame} (start : TermStart frames) :
    steps? table (operand x frames) ts =
      (e.eval table).map fun v => (table, operator x v frames) :=
  match h with
  | .factor h => by
    rw [h.steps table x frames]
    simp only [start x]
  | .mul (a := a) (b := b) ha hb => by
    rw [steps?_append, ha.steps table x start, Expr.eval_mul]
    cases a.eval table with
    | none => rfl
    | some v =>
      rw [Option.map_some, Option.bind_some, steps?_cons, step?, Option.bind_some,
        hb.steps table x (.times v :: frames)]
      simp only [resume, start x]
      cases b.eval table <;> rfl

theorem Expression.steps {ts : List Token} {e : Expr} (h : Expression ts e) (table : Table)
    (x : String) {frames : List Frame} (settled : Settled frames) {t : Token}
    (star : t ≠ .mark .star) :
    steps? table (operand x frames) (ts ++ [t]) =
      (e.eval table).bind fun v => (operator x v frames).step? table t :=
  match h with
  | .term h => by
    rw [steps?_append, h.steps table x settled.termStart]
    cases e.eval table with
    | none => rfl
    | some v => exact steps?_singleton _ _ _
  | .add ha hb => by
    rw [Expr.eval_add]
    refine steps?_sum .plus ?_ (fun v => hb.steps table x (termStart_plus v frames))
      (fun v w => settled.settle_eq (v + w)) star
    rw [ha.steps table x settled (t := .mark .plus) (by simp)]
    simp only [step?, settled.settle_eq]
  | .sub ha hb => by
    rw [Expr.eval_sub]
    refine steps?_sum .minus ?_ (fun v => hb.steps table x (termStart_minus v frames))
      (fun v w => settled.settle_eq (v - w)) star
    rw [ha.steps table x settled (t := .mark .minus) (by simp)]
    simp only [step?, settled.settle_eq]

end

theorem Assignment.steps {ts : List Token} {s : Statement} (h : Assignment ts s) (table : Table) :
    steps? table target ts = (s.execute table).map fun t => (t, target) := by
  cases h with
  | @mk x ts e h =>
    have read := h.steps table x settled_nil (t := .mark .semicolon) (by simp)
    rw [steps?_cons, step?, Option.bind_some, steps?_cons, step?, Option.bind_some, read,
      Statement.execute]
    cases e.eval table <;> rfl

theorem Program.steps {ts : List Token} {ss : List Statement} (h : Program ts ss) (table : Table) :
    steps? table target ts = (Statement.executeAll table ss).map fun t => (t, target) := by
  induction h generalizing table with
  | nil => rfl
  | @cons ts us s ss h more ih =>
    rw [steps?_append, h.steps table, Statement.executeAll, List.foldlM_cons]
    cases s.execute table with
    | none => rfl
    | some next => exact ih next

end StraightLine.Grammar
