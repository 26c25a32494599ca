import StraightLine.Proofs.Control
import StraightLine.Proofs.Postcondition
set_option autoImplicit false

/-! # The rules follow the control

Every rule of the reader, started where an operand or an operator may stand, does what the steps of
the control do, whatever waits for its value. The tails of sums and products are taken up from
zero and one and added or multiplied on at the end, so their values are regrouped on the way. -/

namespace StraightLine

open Control

def Machine.stream (m : Machine) : TokenStream :=
  if m.current = .endOfInput then .finish m.position
  else .token m.position m.current m.ahead

def Control.runFrom (c : Control) (m : Machine) : Except Error Table :=
  c.run m.table m.stream

namespace Machine

theorem stream_of_endOfInput {m : Machine} (h : m.current = .endOfInput) :
    m.stream = .finish m.position := by
  simp [stream, h]

theorem stream_of_ne {m : Machine} (h : m.current ≠ .endOfInput) :
    m.stream = .token m.position m.current m.ahead := by
  simp [stream, h]

theorem run_ahead (c : Control) (table : Table) (position : Nat) (t : Token) (rest : TokenStream) :
    c.run table (.token position t rest) =
      c.run table (if t = .endOfInput then .finish position else .token position t rest) := by
  split
  next h => simp [Control.run, h]
  · rfl

/-- A step of the control is what reading the next token does, unless that is a literal which is
rejected. -/
theorem advance_follows (m : Machine) (h : m.current ≠ .endOfInput) {c c' : Control} {table : Table}
    (step : c.step? m.table m.current = some (table, c')) :
    (m.advance h).Ensures (fun _ n => n.table = m.table ∧ c.runFrom m = c'.run table n.stream)
      (fun e _ => c.runFrom m = .error e) := by
  have taken : c.runFrom m = c'.run table m.ahead := by
    rw [runFrom, stream_of_ne h, Control.run, if_neg h, step]
  rw [taken]
  unfold advance
  split
  next position ahead =>
    refine ⟨rfl, ?_⟩
    rw [ahead]
    rfl
  next r ahead =>
    change c'.run table m.ahead = _
    rw [ahead]
    rfl
  next position t rest ahead =>
    refine ⟨rfl, ?_⟩
    rw [ahead, run_ahead]
    rfl

theorem advance_keeps (m : Machine) (h : m.current ≠ .endOfInput) {c : Control} (c' : Control)
    (step : c.step? m.table m.current = some (m.table, c')) :
    (m.advance h).Ensures (fun _ n => c.runFrom m = c'.runFrom n)
      (fun e _ => c.runFrom m = .error e) := by
  refine (advance_follows m h step).imp ?_
  rintro _ n ⟨same, follows⟩
  rw [follows, ← same]
  rfl

theorem refused_runFrom {m : Machine} {c : Control} (h : c.step? m.table m.current = none)
    (inside : c ≠ target) : c.runFrom m = .error ⟨m.position, c.complaint m.current⟩ := by
  by_cases last : m.current = .endOfInput
  · rw [runFrom, stream_of_endOfInput last, last]
    exact finish_of_ne_target inside
  · rw [runFrom, stream_of_ne last, Control.run, if_neg last, h]

theorem operator_runFrom_eq {m : Machine} {value total : Int64} {frames outer : List Frame}
    (h : settle value frames = (total, outer)) (x : String) (star : m.current ≠ .mark .star) :
    (operator x value frames).runFrom m = (operator x total outer).runFrom m := by
  have step := step?_operator_of_settle h m.table x star
  have complaint : (operator x value frames).complaint m.current =
      (operator x total outer).complaint m.current := by
    have member := group_mem_settle_iff value frames
    rw [h] at member
    simp only [Control.complaint, member]
  by_cases last : m.current = .endOfInput
  · rw [last] at complaint
    rw [runFrom, runFrom, stream_of_endOfInput last, Control.run, Control.run,
      finish_of_ne_target (by simp), finish_of_ne_target (by simp), complaint]
  · rw [runFrom, runFrom, stream_of_ne last, Control.run, Control.run, if_neg last, if_neg last,
      step, complaint]

/-- Where a control stands that takes one mark only, and asks for it. -/
structure Wants (c : Control) (m : Machine) (mark : Mark) (table : Table) (c' : Control) : Prop where
  inside : c ≠ target
  taken : c.step? m.table (.mark mark) = some (table, c')
  refused : m.current ≠ .mark mark → c.step? m.table m.current = none
  named : c.complaint m.current = .unexpected (.mark mark) m.current.kind m.current.lexeme

theorem expect_follows {m : Machine} {mark : Mark} {c c' : Control} {table : Table}
    (h : Wants c m mark table c') :
    (m.expect mark).Ensures (fun _ n => n.table = m.table ∧ c.runFrom m = c'.run table n.stream)
      (fun e _ => c.runFrom m = .error e) := by
  unfold expect
  split
  next here => exact advance_follows m _ (here ▸ h.taken)
  next other =>
    change c.runFrom m = _
    rw [refused_runFrom (h.refused other) h.inside, h.named]

theorem expect_keeps {m : Machine} {mark : Mark} {c c' : Control}
    (h : Wants c m mark m.table c') :
    (m.expect mark).Ensures (fun _ n => c.runFrom m = c'.runFrom n)
      (fun e _ => c.runFrom m = .error e) := by
  refine (expect_follows h).imp ?_
  rintro _ n ⟨same, follows⟩
  rw [follows, ← same]
  rfl

structure EndsExpression (m : Machine) : Prop where
  star : m.current ≠ .mark .star
  plus : m.current ≠ .mark .plus
  minus : m.current ≠ .mark .minus

theorem wants_assign (m : Machine) (x : String) :
    Wants (equals x) m .assign m.table (operand x []) where
  inside := by simp
  taken := rfl
  refused other := by
    cases current : m.current with
    | mark k =>
      cases k with
      | assign => exact absurd current other
      | semicolon | plus | minus | star | leftParen | rightParen => rfl
    | name | literal | invalid | endOfInput => rfl
  named := rfl

theorem wants_rightParen {m : Machine} (h : EndsExpression m) (x : String) (value : Int64)
    (frames : List Frame) :
    Wants (operator x value (.group :: frames)) m .rightParen m.table (resume x value frames) where
  inside := by simp
  taken := rfl
  refused other := by
    cases current : m.current with
    | mark k =>
      cases k with
      | star => exact absurd current h.star
      | plus => exact absurd current h.plus
      | minus => exact absurd current h.minus
      | rightParen => exact absurd current other
      | assign | semicolon | leftParen => rfl
    | name | literal | invalid | endOfInput => rfl
  named := by simp [Control.complaint]

theorem wants_semicolon {m : Machine} (h : EndsExpression m) (x : String) (value : Int64) :
    Wants (operator x value []) m .semicolon (m.table.assign x value) target where
  inside := by simp
  taken := rfl
  refused other := by
    cases current : m.current with
    | mark k =>
      cases k with
      | star => exact absurd current h.star
      | plus => exact absurd current h.plus
      | minus => exact absurd current h.minus
      | semicolon => exact absurd current other
      | assign | leftParen | rightParen => rfl
    | name | literal | invalid | endOfInput => rfl
  named := by simp [Control.complaint]

mutual

theorem factor_follows (m : Machine) (x : String) (frames : List Frame) :
    m.factor.Ensures (fun v n => (operand x frames).runFrom m = (resume x v frames).runFrom n)
      (fun e _ => (operand x frames).runFrom m = .error e) := by
  rw [factor]
  split
  next digits value current =>
    exact (advance_keeps m _ (resume x value frames) (by rw [current]; rfl)).map
  next y current =>
    split
    next value bound =>
      refine (advance_keeps m _ (resume x value frames) ?_).map
      rw [current, step?, bound]
      rfl
    next free =>
      have refused : (operand x frames).step? m.table m.current = none := by
        rw [current, step?, free]
        rfl
      change (operand x frames).runFrom m = _
      rw [refused_runFrom refused (by simp), current]
      rfl
  next current =>
    refine (advance_keeps m _ (operand x frames) (by rw [current]; rfl)).andThen ?_
    intro _ n fewer same
    rw [same]
    exact factor_follows n x frames
  next current =>
    refine Step.Ensures.map ?_
    refine (advance_keeps m _ (operand x (.negate :: frames)) (by rw [current]; rfl)).andThen ?_
    intro _ n fewer same
    rw [same]
    exact factor_follows n x (.negate :: frames)
  next current =>
    refine (advance_keeps m _ (operand x (.group :: frames)) (by rw [current]; rfl)).andThen ?_
    intro _ n fewer same
    rw [same]
    refine (expression_follows n x (settled_group frames)).andThen ?_
    rintro value n' fewer' ⟨ends, same⟩
    rw [same]
    exact (expect_keeps (wants_rightParen ends x value frames)).map
  next literal name plus minus leftParen =>
    have refused : (operand x frames).step? m.table m.current = none := by
      cases current : m.current with
      | mark k =>
        cases k with
        | plus => exact absurd current plus
        | minus => exact absurd current minus
        | leftParen => exact absurd current leftParen
        | assign | semicolon | star | rightParen => rfl
      | name y => exact absurd current (name y)
      | literal digits value => exact absurd current (literal digits value)
      | invalid | endOfInput => rfl
    change (operand x frames).runFrom m = _
    rw [refused_runFrom refused (by simp)]
    cases current : m.current with
    | name y => exact absurd current (name y)
    | mark | literal | invalid | endOfInput => rfl
termination_by 3 * m.remaining

theorem termTail_follows (m : Machine) (product : Int64) (x : String) (first : Int64)
    {frames : List Frame} (h : TermStart frames) :
    (m.termTail product).Ensures
      (fun v n => n.current ≠ .mark .star ∧
        (operator x (first * product) frames).runFrom m =
          (operator x (first * v) frames).runFrom n)
      (fun e _ => (operator x (first * product) frames).runFrom m = .error e) := by
  rw [termTail]
  split
  next current =>
    refine Step.Ensures.weaken ?_
    refine (advance_keeps m _ (operand x (.times (first * product) :: frames))
      (by rw [current]; rfl)).andThen ?_
    intro _ n fewer same
    rw [same]
    refine (factor_follows n x _).followedBy ?_
    intro value n' fewer' same
    have regrouped : resume x value (.times (first * product) :: frames) =
        operator x (first * (product * value)) frames := by
      rw [resume, h, Int64.mul_assoc]
    rw [same, regrouped]
    exact termTail_follows n' (product * value) x first h
  next star => exact ⟨star, rfl⟩
termination_by 3 * m.remaining

theorem term_follows (m : Machine) (x : String) {frames : List Frame} (h : TermStart frames) :
    m.term.Ensures
      (fun v n => n.current ≠ .mark .star ∧
        (operand x frames).runFrom m = (operator x v frames).runFrom n)
      (fun e _ => (operand x frames).runFrom m = .error e) := by
  rw [term]
  refine (factor_follows m x frames).followedBy ?_
  intro first n fewer same
  have start : resume x first frames = operator x (first * 1) frames := by
    rw [h, Int64.mul_one]
  rw [same, start]
  exact (termTail_follows n 1 x first h).map
termination_by 3 * m.remaining + 1

theorem expressionTail_follows (m : Machine) (sum : Int64) (x : String) (first value : Int64)
    {frames outer : List Frame} (h : settle value frames = (first + sum, outer))
    (star : m.current ≠ .mark .star) :
    (m.expressionTail sum).Ensures
      (fun v n => EndsExpression n ∧
        (operator x value frames).runFrom m = (operator x (first + v) outer).runFrom n)
      (fun e _ => (operator x value frames).runFrom m = .error e) := by
  have settled : Settled outer := by
    have inner := settled_settle value frames
    rwa [h] at inner
  rw [expressionTail]
  split
  next current =>
    refine Step.Ensures.weaken ?_
    refine (advance_keeps m _ (operand x (.plus (first + sum) :: outer)) ?_).andThen ?_
    · rw [current, step?, h]
    · intro _ n fewer same
      rw [same]
      refine (term_follows n x (termStart_plus _ _)).followedBy ?_
      rintro value n' fewer' ⟨star, same⟩
      rw [same]
      refine expressionTail_follows n' (sum + value) x first value ?_ star
      rw [settle, settled.settle_eq, Int64.add_assoc]
  next plus =>
    split
    next current =>
      refine Step.Ensures.weaken ?_
      refine (advance_keeps m _ (operand x (.minus (first + sum) :: outer)) ?_).andThen ?_
      · rw [current, step?, h]
      · intro _ n fewer same
        rw [same]
        refine (term_follows n x (termStart_minus _ _)).followedBy ?_
        rintro value n' fewer' ⟨star, same⟩
        rw [same]
        refine expressionTail_follows n' (sum + -value) x first value ?_ star
        rw [settle, settled.settle_eq, Int64.sub_eq_add_neg, Int64.add_assoc]
    next minus => exact ⟨⟨star, plus, minus⟩, operator_runFrom_eq h x star⟩
termination_by 3 * m.remaining

theorem expression_follows (m : Machine) (x : String) {frames : List Frame} (h : Settled frames) :
    m.expression.Ensures
      (fun v n => EndsExpression n ∧
        (operand x frames).runFrom m = (operator x v frames).runFrom n)
      (fun e _ => (operand x frames).runFrom m = .error e) := by
  rw [expression]
  refine (term_follows m x h.termStart).followedBy ?_
  rintro first n fewer ⟨star, same⟩
  rw [same]
  refine (expressionTail_follows n 0 x first first ?_ star).map
  rw [h.settle_eq, Int64.add_zero]
termination_by 3 * m.remaining + 2

end

theorem statement_follows (m : Machine) (h : m.current ≠ .endOfInput) :
    m.statement.Ensures (fun _ n => target.runFrom m = target.runFrom n)
      (fun e _ => target.runFrom m = .error e) := by
  unfold statement
  split
  next x current =>
    refine (advance_keeps m _ (equals x) (by rw [current]; rfl)).andThen ?_
    intro _ n fewer same
    rw [same]
    refine (expect_keeps (wants_assign n x)).andThen ?_
    intro _ n fewer same
    rw [same]
    refine (expression_follows n x settled_nil).andThen ?_
    rintro value n fewer ⟨ends, same⟩
    rw [same]
    refine (expect_follows (wants_semicolon ends x value)).followedBy ?_
    rintro _ n' fewer ⟨table, same⟩
    change _ = _
    rw [same, ← table]
    rfl
  next other =>
    have refused : target.step? m.table m.current = none := by
      cases current : m.current with
      | name y => exact absurd current (other y)
      | mark | literal | invalid | endOfInput => rfl
    change target.runFrom m = _
    rw [runFrom, stream_of_ne h, Control.run, if_neg h, refused]
    rfl

theorem outcome_run (m : Machine) : m.run.outcome = target.runFrom m := by
  fun_induction run m with
  | case1 m h =>
    rw [runFrom, stream_of_endOfInput h]
    rfl
  | case2 m h next fewer done ih =>
    have follows := statement_follows m h
    rw [done] at follows
    exact ih.trans follows.symm
  | case3 m h e last failed =>
    have follows := statement_follows m h
    rw [failed] at follows
    exact follows.symm

end Machine

/-- A program ends as its tokens, taken one at a time, make the control end. -/
theorem interpret_eq_run (source : String) :
    interpret source = target.run .empty (.ofSource source) := by
  unfold interpret Run.ofSource Run.ofStream
  cases TokenStream.ofSource source with
  | finish position => exact Machine.outcome_run _
  | rejected r => rfl
  | token position t rest =>
    rw [Machine.run_ahead]
    exact Machine.outcome_run _

end StraightLine
