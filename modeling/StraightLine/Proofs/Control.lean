import StraightLine.Evaluation
set_option autoImplicit false

/-! # Where a run stands

Between two tokens, all that a run keeps besides its table is which part of a statement comes next
and what the operators and groups that were begun are waiting for. With that written out as data,
a run takes one step for each token. -/

namespace StraightLine

inductive Frame where
  | group
  | plus (sum : Int64)
  | minus (sum : Int64)
  | times (product : Int64)
  | negate
  deriving DecidableEq

inductive Control where
  | target
  | equals (name : String)
  | operand (name : String) (frames : List Frame)
  | operator (name : String) (value : Int64) (frames : List Frame)
  deriving DecidableEq

namespace Control

/-- Gives an operand to the signs and the product that wait for it. -/
def resume (name : String) (value : Int64) : List Frame → Control
  | .negate :: frames => resume name (-value) frames
  | .times product :: frames => resume name (product * value) frames
  | frames => operator name value frames

/-- Ends everything that was begun since the innermost open group. -/
def settle (value : Int64) : List Frame → Int64 × List Frame
  | .negate :: frames => settle (-value) frames
  | .times product :: frames => settle (product * value) frames
  | .plus sum :: frames => settle (sum + value) frames
  | .minus sum :: frames => settle (sum - value) frames
  | frames => (value, frames)

def step? (table : Table) : Control → Token → Option (Table × Control)
  | target, .name x => some (table, equals x)
  | equals x, .mark .assign => some (table, operand x [])
  | operand x frames, .literal _ value => some (table, resume x value frames)
  | operand x frames, .name y => (table.get? y).map fun value => (table, resume x value frames)
  | operand x frames, .mark .plus => some (table, operand x frames)
  | operand x frames, .mark .minus => some (table, operand x (.negate :: frames))
  | operand x frames, .mark .leftParen => some (table, operand x (.group :: frames))
  | operator x value frames, .mark .star => some (table, operand x (.times value :: frames))
  | operator x value frames, .mark .plus =>
    some (table, operand x (.plus (settle value frames).1 :: (settle value frames).2))
  | operator x value frames, .mark .minus =>
    some (table, operand x (.minus (settle value frames).1 :: (settle value frames).2))
  | operator x value frames, .mark .rightParen =>
    match settle value frames with
    | (total, .group :: outer) => some (table, resume x total outer)
    | _ => none
  | operator x value frames, .mark .semicolon =>
    match settle value frames with
    | (total, []) => some (table.assign x total, target)
    | _ => none
  | _, _ => none

def complaint : Control → Token → Cause
  | target, t => .unexpected .name t.kind t.lexeme
  | equals _, t => .unexpected (.mark .assign) t.kind t.lexeme
  | operand _ _, .name y => .unbound y
  | operand _ _, t => .operand t.kind t.lexeme
  | operator _ _ frames, t =>
    .unexpected (.mark (if .group ∈ frames then .rightParen else .semicolon)) t.kind t.lexeme

def finish (table : Table) (position : Nat) : Control → Except Error Table
  | target => .ok table
  | c => .error ⟨position, c.complaint .endOfInput⟩

def run (c : Control) (table : Table) : TokenStream → Except Error Table
  | .finish position => c.finish table position
  | .rejected r => .error r.toError
  | .token position t rest =>
    if t = .endOfInput then c.finish table position
    else match c.step? table t with
      | some (next, c') => c'.run next rest
      | none => .error ⟨position, c.complaint t⟩

def steps? (table : Table) (c : Control) (ts : List Token) : Option (Table × Control) :=
  ts.foldlM (fun s t => s.2.step? s.1 t) (table, c)

@[simp] theorem steps?_nil (table : Table) (c : Control) :
    steps? table c [] = some (table, c) := rfl

@[simp] theorem steps?_cons (table : Table) (c : Control) (t : Token) (ts : List Token) :
    steps? table c (t :: ts) = (c.step? table t).bind fun s => steps? s.1 s.2 ts := rfl

theorem steps?_singleton (table : Table) (c : Control) (t : Token) :
    steps? table c [t] = c.step? table t := by
  rw [steps?_cons]
  cases c.step? table t <;> rfl

@[simp] theorem steps?_append (table : Table) (c : Control) (ts us : List Token) :
    steps? table c (ts ++ us) = (steps? table c ts).bind fun s => steps? s.1 s.2 us := by
  simp only [steps?, List.foldlM_append]
  rfl

theorem step?_endOfInput (table : Table) (c : Control) : c.step? table .endOfInput = none := by
  cases c <;> rfl

theorem finish_of_ne_target {table : Table} {position : Nat} {c : Control} (h : c ≠ target) :
    c.finish table position = .error ⟨position, c.complaint .endOfInput⟩ := by
  cases c with
  | target => exact absurd rfl h
  | equals | operand | operator => rfl

def TermStart (frames : List Frame) : Prop :=
  ∀ name value, resume name value frames = operator name value frames

/-- Nothing waits but open groups. -/
def Settled (frames : List Frame) : Prop :=
  frames = [] ∨ ∃ outer, frames = .group :: outer

theorem settled_nil : Settled [] := .inl rfl

theorem settled_group (frames : List Frame) : Settled (.group :: frames) := .inr ⟨frames, rfl⟩

theorem settled_settle (value : Int64) (frames : List Frame) :
    Settled (settle value frames).2 := by
  fun_induction settle value frames with
  | case1 | case2 | case3 | case4 => assumption
  | case5 value frames h₁ h₂ h₃ h₄ =>
    cases frames with
    | nil => exact settled_nil
    | cons f frames =>
      cases f with
      | group => exact settled_group frames
      | plus sum => exact absurd rfl (h₃ sum frames)
      | minus sum => exact absurd rfl (h₄ sum frames)
      | times product => exact absurd rfl (h₂ product frames)
      | negate => exact absurd rfl (h₁ frames)

theorem Settled.settle_eq {frames : List Frame} (h : Settled frames) (value : Int64) :
    settle value frames = (value, frames) := by
  obtain rfl | ⟨outer, rfl⟩ := h <;> rfl

theorem Settled.termStart {frames : List Frame} (h : Settled frames) : TermStart frames := by
  intro name value
  obtain rfl | ⟨outer, rfl⟩ := h <;> rfl

theorem termStart_plus (sum : Int64) (frames : List Frame) : TermStart (.plus sum :: frames) :=
  fun _ _ => rfl

theorem termStart_minus (sum : Int64) (frames : List Frame) : TermStart (.minus sum :: frames) :=
  fun _ _ => rfl

theorem count_group_settle (value : Int64) (frames : List Frame) :
    (settle value frames).2.count .group = frames.count .group := by
  fun_induction settle value frames with
  | case1 value frames ih => simpa using ih
  | case2 value product frames ih => simpa using ih
  | case3 value sum frames ih => simpa using ih
  | case4 value sum frames ih => simpa using ih
  | case5 => rfl

theorem step?_operator_of_settle {value total : Int64} {frames outer : List Frame}
    (h : settle value frames = (total, outer)) (table : Table) (x : String) {t : Token}
    (star : t ≠ .mark .star) :
    (operator x value frames).step? table t = (operator x total outer).step? table t := by
  have settled : Settled outer := by
    have inner := settled_settle value frames
    rwa [h] at inner
  have again := settled.settle_eq total
  cases t with
  | mark m =>
    cases m with
    | star => exact absurd rfl star
    | plus | minus | rightParen | semicolon => simp only [step?, h, again]
    | assign | leftParen => rfl
  | name | literal | invalid | endOfInput => rfl

theorem group_mem_settle_iff (value : Int64) (frames : List Frame) :
    .group ∈ (settle value frames).2 ↔ .group ∈ frames := by
  rw [← List.count_pos_iff, ← List.count_pos_iff, count_group_settle]

end Control

end StraightLine
