import StraightLine.Table.Basic
import StraightLine.Token.Basic
set_option autoImplicit false

namespace StraightLine

inductive Expr where
  | literal (value : Int64)
  | name (text : String)
  | plus (e : Expr)
  | minus (e : Expr)
  | add (a b : Expr)
  | sub (a b : Expr)
  | mul (a b : Expr)
  deriving DecidableEq

namespace Expr

/-- The value of an expression, if every name in it has one. The rule is the same for every kind of
number, so that words and unbounded integers can be compared. -/
def value {R : Type} [Add R] [Sub R] [Mul R] [Neg R] (ofLiteral : Int64 → R)
    (get? : String → Option R) : Expr → Option R
  | literal v => some (ofLiteral v)
  | name x => get? x
  | plus e => e.value ofLiteral get?
  | minus e => (e.value ofLiteral get?).map fun v => -v
  | add a b =>
    (a.value ofLiteral get?).bind fun v => (b.value ofLiteral get?).map fun w => v + w
  | sub a b =>
    (a.value ofLiteral get?).bind fun v => (b.value ofLiteral get?).map fun w => v - w
  | mul a b =>
    (a.value ofLiteral get?).bind fun v => (b.value ofLiteral get?).map fun w => v * w

def eval (t : Table) : Expr → Option Int64 :=
  value id t.get?

@[simp] theorem eval_literal (t : Table) (v : Int64) : (literal v).eval t = some v := rfl

@[simp] theorem eval_name (t : Table) (x : String) : (name x).eval t = t.get? x := rfl

@[simp] theorem eval_plus (t : Table) (e : Expr) : (plus e).eval t = e.eval t := rfl

@[simp] theorem eval_minus (t : Table) (e : Expr) :
    (minus e).eval t = (e.eval t).map fun v => -v := rfl

@[simp] theorem eval_add (t : Table) (a b : Expr) :
    (add a b).eval t = (a.eval t).bind fun v => (b.eval t).map fun w => v + w := rfl

@[simp] theorem eval_sub (t : Table) (a b : Expr) :
    (sub a b).eval t = (a.eval t).bind fun v => (b.eval t).map fun w => v - w := rfl

@[simp] theorem eval_mul (t : Table) (a b : Expr) :
    (mul a b).eval t = (a.eval t).bind fun v => (b.eval t).map fun w => v * w := rfl

def exactValue (get? : String → Option Int) : Expr → Option Int :=
  value Int64.toInt get?

end Expr

structure Statement where
  target : String
  source : Expr
  deriving DecidableEq

namespace Statement

def execute (t : Table) (s : Statement) : Option Table :=
  (s.source.eval t).map (t.assign s.target)

def executeAll (t : Table) (statements : List Statement) : Option Table :=
  statements.foldlM execute t

def executeExact (get? : String → Option Int) (s : Statement) : Option (String → Option Int) :=
  (s.source.exactValue get?).map fun v name => if name = s.target then some v else get? name

def executeAllExact (get? : String → Option Int) (statements : List Statement) :
    Option (String → Option Int) :=
  statements.foldlM executeExact get?

end Statement

namespace Grammar

mutual

inductive Factor : List Token → Expr → Prop where
  | literal (digits : String) (v : Int64) : Factor [.literal digits v] (.literal v)
  | name (x : String) : Factor [.name x] (.name x)
  | plus {ts : List Token} {e : Expr} (h : Factor ts e) : Factor (.mark .plus :: ts) (.plus e)
  | minus {ts : List Token} {e : Expr} (h : Factor ts e) : Factor (.mark .minus :: ts) (.minus e)
  | group {ts : List Token} {e : Expr} (h : Expression ts e) :
      Factor (.mark .leftParen :: (ts ++ [.mark .rightParen])) e

inductive Term : List Token → Expr → Prop where
  | factor {ts : List Token} {e : Expr} (h : Factor ts e) : Term ts e
  | mul {ts us : List Token} {a b : Expr} (ha : Term ts a) (hb : Factor us b) :
      Term (ts ++ .mark .star :: us) (.mul a b)

inductive Expression : List Token → Expr → Prop where
  | term {ts : List Token} {e : Expr} (h : Term ts e) : Expression ts e
  | add {ts us : List Token} {a b : Expr} (ha : Expression ts a) (hb : Term us b) :
      Expression (ts ++ .mark .plus :: us) (.add a b)
  | sub {ts us : List Token} {a b : Expr} (ha : Expression ts a) (hb : Term us b) :
      Expression (ts ++ .mark .minus :: us) (.sub a b)

end

inductive Assignment : List Token → Statement → Prop where
  | mk {x : String} {ts : List Token} {e : Expr} (h : Expression ts e) :
      Assignment (.name x :: .mark .assign :: (ts ++ [.mark .semicolon])) ⟨x, e⟩

inductive Program : List Token → List Statement → Prop where
  | nil : Program [] []
  | cons {ts us : List Token} {s : Statement} {ss : List Statement} (h : Assignment ts s)
      (more : Program us ss) : Program (ts ++ us) (s :: ss)

end Grammar

end StraightLine
