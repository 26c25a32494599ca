import StraightLine.Proofs.FirstError
import StraightLine.Proofs.Reading
set_option autoImplicit false

/-! # How a run comes to its end

Every rule does nothing but read on, token by token, until it succeeds or refuses: the token that
it looks at, or a literal that is rejected in place of the next one. So what reading on inside an
expression preserves holds where an expression ends, and what reading on and storing a value
preserve holds where the run ends, and with it the reason why the run ends there. -/

namespace StraightLine

namespace Machine

inductive Refuses (m : Machine) : Error → Prop where
  | token {e : Error} (position : e.position = m.position) (blames : e.Blames (.ok m.current)) :
      Refuses m e
  | literal {r : RejectedLiteral} (ahead : m.ahead = .rejected r) : Refuses m r.toError

theorem refuses_unexpected (m : Machine) (expected : Kind) :
    m.Refuses ⟨m.position, .unexpected expected m.current.kind m.current.lexeme⟩ :=
  .token rfl ⟨rfl, rfl⟩

theorem refuses_operand (m : Machine) :
    m.Refuses ⟨m.position, .operand m.current.kind m.current.lexeme⟩ :=
  .token rfl ⟨rfl, rfl⟩

theorem refuses_unbound {m : Machine} {x : String} (current : m.current = .name x) :
    m.Refuses ⟨m.position, .unbound x⟩ :=
  .token rfl current

end Machine

namespace Step

variable {α β : Type} {b : Nat}

/-- The invariant holds where the rule ends, and a failure has its reason there. -/
def Upholds (I : Machine → Prop) (s : Step b α) : Prop :=
  s.Ensures (fun _ n => I n) (fun e last => I last ∧ last.Refuses e)

section Upholds

variable {I : Machine → Prop} {s : Step b α}

theorem Upholds.map {f : α → β} (h : s.Upholds I) : (s.map f).Upholds I :=
  Ensures.map h

theorem Upholds.weaken (h : s.Upholds I) : s.weaken.Upholds I :=
  Ensures.weaken h

theorem Upholds.followedBy
    {k : (value : α) → (next : Machine) → next.remaining < b → Step (next.remaining + 1) β}
    (first : s.Upholds I)
    (second : ∀ v n (fewer : n.remaining < b), I n → (k v n fewer).Upholds I) :
    (s.followedBy k).Upholds I :=
  Ensures.followedBy first second

theorem Upholds.andThen
    {k : (value : α) → (next : Machine) → next.remaining < b → Step next.remaining β}
    (first : s.Upholds I)
    (second : ∀ v n (fewer : n.remaining < b), I n → (k v n fewer).Upholds I) :
    (s.andThen k).Upholds I :=
  Ensures.andThen first second

end Upholds

end Step

def Token.inExpression : Token → Bool
  | name _ => true
  | literal _ _ => true
  | mark m => m ≠ .assign ∧ m ≠ .semicolon
  | invalid _ => false
  | endOfInput => false

namespace Machine

open Step

theorem advance_ends (m : Machine) (h : m.current ≠ .endOfInput) :
    (m.advance h).Ensures (fun _ n => m.Passes [m.current] n)
      (fun e last => last = m ∧ m.Refuses e) := by
  cases step : m.advance h with
  | ok value n fewer => exact .next step (.refl n)
  | error e last =>
    unfold advance at step
    split at step <;> cases step
    next r ahead => exact ⟨rfl, .literal ahead⟩

theorem expect_ends (m : Machine) (mark : Mark) :
    (m.expect mark).Ensures (fun _ n => m.Passes [.mark mark] n)
      (fun e last => last = m ∧ m.Refuses e) := by
  unfold expect
  split
  next here =>
    rw [← here]
    exact advance_ends m _
  · exact ⟨rfl, refuses_unexpected m (.mark mark)⟩

/-- Going on from a token of an expression preserves the invariant. -/
def Carried (I : Machine → Prop) : Prop :=
  ∀ {m n : Machine}, I m → m.current.inExpression = true → m.Passes [m.current] n → I n

section Carried

variable {I : Machine → Prop}

theorem advance_upholds (carried : Carried I) {m : Machine} (start : I m)
    (h : m.current ≠ .endOfInput) (inside : m.current.inExpression = true) :
    (m.advance h).Upholds I := by
  refine (advance_ends m h).mono (fun _ _ passed => carried start inside passed) ?_
  rintro e _ ⟨rfl, refused⟩
  exact ⟨start, refused⟩

theorem expect_upholds (carried : Carried I) {m : Machine} (start : I m) {mark : Mark}
    (inside : (Token.mark mark).inExpression = true) : (m.expect mark).Upholds I := by
  unfold expect
  split
  next here => exact advance_upholds carried start _ (here ▸ inside)
  · exact ⟨start, refuses_unexpected m (.mark mark)⟩

mutual

theorem factor_upholds (carried : Carried I) (m : Machine) (start : I m) :
    m.factor.Upholds I := by
  rw [factor]
  split
  next digits value current =>
    exact (advance_upholds carried start _ (by rw [current]; rfl)).map
  next y current =>
    split
    · exact (advance_upholds carried start _ (by rw [current]; rfl)).map
    · exact ⟨start, refuses_unbound current⟩
  next current =>
    refine (advance_upholds carried start _ (by rw [current]; rfl)).andThen ?_
    intro _ n fewer here
    exact factor_upholds carried n here
  next current =>
    refine ((advance_upholds carried start _ (by rw [current]; rfl)).andThen ?_).map
    intro _ n fewer here
    exact factor_upholds carried n here
  next current =>
    refine (advance_upholds carried start _ (by rw [current]; rfl)).andThen ?_
    intro _ n fewer here
    refine (expression_upholds carried n here).andThen ?_
    intro _ n' fewer' here'
    exact (expect_upholds carried here' rfl).map
  · exact ⟨start, refuses_operand m⟩
termination_by 3 * m.remaining

theorem termTail_upholds (carried : Carried I) (m : Machine) (start : I m) (product : Int64) :
    (m.termTail product).Upholds I := by
  rw [termTail]
  split
  next current =>
    refine Upholds.weaken ?_
    refine (advance_upholds carried start _ (by rw [current]; rfl)).andThen ?_
    intro _ n fewer here
    refine (factor_upholds carried n here).followedBy ?_
    intro _ n' fewer' here'
    exact termTail_upholds carried n' here' _
  · exact start
termination_by 3 * m.remaining

theorem term_upholds (carried : Carried I) (m : Machine) (start : I m) : m.term.Upholds I := by
  rw [term]
  refine (factor_upholds carried m start).followedBy ?_
  intro _ n fewer here
  exact (termTail_upholds carried n here 1).map
termination_by 3 * m.remaining + 1

theorem expressionTail_upholds (carried : Carried I) (m : Machine) (start : I m) (sum : Int64) :
    (m.expressionTail sum).Upholds I := by
  rw [expressionTail]
  split
  next current =>
    refine Upholds.weaken ?_
    refine (advance_upholds carried start _ (by rw [current]; rfl)).andThen ?_
    intro _ n fewer here
    refine (term_upholds carried n here).followedBy ?_
    intro _ n' fewer' here'
    exact expressionTail_upholds carried n' here' _
  · split
    next current =>
      refine Upholds.weaken ?_
      refine (advance_upholds carried start _ (by rw [current]; rfl)).andThen ?_
      intro _ n fewer here
      refine (term_upholds carried n here).followedBy ?_
      intro _ n' fewer' here'
      exact expressionTail_upholds carried n' here' _
    · exact start
termination_by 3 * m.remaining

theorem expression_upholds (carried : Carried I) (m : Machine) (start : I m) :
    m.expression.Upholds I := by
  rw [expression]
  refine (term_upholds carried m start).followedBy ?_
  intro _ n fewer here
  exact (expressionTail_upholds carried n here 0).map
termination_by 3 * m.remaining + 2

end

end Carried

/-- What going on from any valid token preserves holds where a statement ends. -/
theorem statement_upholds {I : Machine → Prop}
    (goes : ∀ {m n : Machine} {t : Token}, I m → t.kind ≠ .invalid → m.Passes [t] n → I n)
    (m : Machine) (start : I m) :
    m.statement.Ensures (fun _ n => ∃ last x v, I last ∧ n = last.assign x v)
      (fun e last => I last ∧ last.Refuses e) := by
  have carried : Carried I := by
    intro m n here inside passed
    refine goes here ?_ passed
    intro invalid
    cases current : m.current <;> rw [current] at inside invalid <;> cases invalid
    cases inside
  have stays {n : Machine} (here : I n) (e : Error) (last : Machine)
      (h : last = n ∧ n.Refuses e) : I last ∧ last.Refuses e := by
    obtain ⟨rfl, refused⟩ := h
    exact ⟨here, refused⟩
  unfold statement
  split
  next x current =>
    refine ((advance_ends m _).mono (fun _ _ => id) (stays start)).andThen ?_
    intro _ n₁ _ name
    have afterName := goes start (by simp [current, Token.kind]) name
    refine ((expect_ends n₁ .assign).mono (fun _ _ => id) (stays afterName)).andThen ?_
    intro _ n₂ _ equals
    have afterEquals := goes afterName (by simp [Token.kind]) equals
    refine Ensures.andThen (expression_upholds carried n₂ afterEquals) ?_
    intro v n₃ _ afterExpression
    refine ((expect_ends n₃ .semicolon).mono (fun _ _ => id) (stays afterExpression)).followedBy ?_
    intro _ last _ semicolon
    exact ⟨last, x, v, goes afterExpression (by simp [Token.kind]) semicolon, rfl⟩
  · exact ⟨start, refuses_unexpected m .name⟩

inductive Ends (last : Machine) : Except Error Table → Prop where
  | accepted (done : last.current = .endOfInput) : Ends last (.ok last.table)
  | rejected {e : Error} (refused : last.Refuses e) : Ends last (.error e)

/-- What reading on and storing a value preserve holds where a run ends. -/
theorem run_ends {I : Machine → Prop}
    (advances : ∀ {m n : Machine} {h : m.current ≠ .endOfInput} {fewer : n.remaining < m.remaining},
      I m → m.advance h = .ok () n fewer → I n)
    (assigns : ∀ {m : Machine} (x : String) (v : Int64), I m → I (m.assign x v))
    {m : Machine} (start : I m) :
    ∃ last, I last ∧ last.Ends m.run.outcome ∧ m.run.events = last.log.reverse := by
  have goes {m n : Machine} {t : Token} (here : I m) (_ : t.kind ≠ .invalid)
      (passed : m.Passes [t] n) : I n := by
    generalize [t] = ts at passed
    induction passed with
    | refl _ => exact here
    | next step _ ih => exact ih (advances here step)
  fun_induction run m with
  | case1 m done => exact ⟨m, start, .accepted done, rfl⟩
  | case2 m inside next fewer done ih =>
    have read := statement_upholds goes m start
    rw [done] at read
    obtain ⟨last, x, v, here, rfl⟩ := read
    exact ih (assigns x v here)
  | case3 m inside e last failed =>
    have read := statement_upholds goes m start
    rw [failed] at read
    exact ⟨last, read.1, .rejected read.2, rfl⟩

end Machine

end StraightLine
