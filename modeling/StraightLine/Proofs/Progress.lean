import StraightLine.Proofs.AssignmentHistory
set_option autoImplicit false

namespace StraightLine

theorem Token.WellFormed.width_pos {t : Token} (h : t.WellFormed) : 0 < t.width := by
  have size : t.lexeme.utf8ByteSize ≠ 0 := by simpa using h.nonempty
  exact Nat.pos_of_ne_zero size

namespace Step

variable {α β γ : Type} {b : Nat}

def ending (s : Step b α) : Except Error α × Machine :=
  (s.result, s.machine)

@[simp] theorem ending_weaken (s : Step b α) : s.weaken.ending = s.ending := by
  cases s <;> rfl

/-- The rule is the beginning of a whole: that fails as the rule does, and otherwise ends as what is
left of it. -/
def Opens (s : Step b α) {c : Nat} (whole : Step c β)
    (left : α → (next : Machine) → Step (next.remaining + 1) β) : Prop :=
  s.Ensures (fun value n => whole.ending = (left value n).ending)
    (fun e last => whole.ending = (.error e, last))

theorem opens_andThen (s : Step b α)
    (k : (value : α) → (next : Machine) → next.remaining < b → Step next.remaining β)
    (left : β → (next : Machine) → Step (next.remaining + 1) γ) :
    (s.andThen k).Opens (s.andThen fun a n fewer =>
      (k a n fewer).followedBy fun value n _ => left value n) left := by
  cases s with
  | error e last => rfl
  | ok a n fewer =>
    simp only [andThen, followedBy, weaken]
    cases k a n fewer with
    | error e last => rfl
    | ok value n' fewer' =>
      simp only [Opens, Ensures]
      cases left value n' <;> rfl

end Step

namespace Machine

/-- The machines that a run of a source can come to, by reading on from its start and storing
values. A character that belongs to no token is never read past. -/
inductive Reachable (source : String) : Machine → Prop where
  | start {m : Machine} (h : Machine.start (.ofSource source) = .ok m) : Reachable source m
  | advance {m n : Machine} {h : m.current ≠ .endOfInput} {fewer : n.remaining < m.remaining}
      (reached : Reachable source m) (valid : m.current.kind ≠ .invalid)
      (step : m.advance h = .ok () n fewer) : Reachable source n
  | assign {m : Machine} (reached : Reachable source m) (x : String) (v : Int64) :
      Reachable source (m.assign x v)

theorem Reachable.tracks {source : String} {m : Machine} (h : Reachable source m) :
    ∃ taken rest, m.Tracks (strip source) (taken ++ m.seen) rest := by
  induction h with
  | start h => exact ⟨[], (start_tracks h).2.2⟩
  | @advance m n inside fewer reached valid step ih =>
    obtain ⟨taken, rest, track⟩ := ih
    obtain ⟨rest', -, track', -⟩ := track.passes (.next step (.refl n))
    exact ⟨_, rest', track'⟩
  | assign reached x v ih =>
    obtain ⟨taken, rest, track⟩ := ih
    exact ⟨taken, rest, track.assign x v⟩

theorem Reachable.position_lt {source : String} {m n : Machine} {t : Token}
    (h : Reachable source m) (passed : m.Passes [t] n) : m.position < n.position := by
  obtain ⟨taken, rest, track⟩ := h.tracks
  obtain ⟨rest', -, track', -⟩ := track.passes passed
  have width : 0 < t.width := (track'.scanned.wellFormed t (by simp)).width_pos
  rw [track'.position_eq, track.position_eq, Token.widths_append, Token.widths_cons]
  omega

theorem Reachable.passes {source : String} {m n : Machine} {ts : List Token}
    (h : Reachable source m) (passed : m.Passes ts n) (valid : ∀ t ∈ ts, t.kind ≠ .invalid) :
    Reachable source n := by
  induction passed with
  | refl m => exact h
  | @next m n last ts inside fewer step more ih =>
    have here := valid m.current List.mem_cons_self
    exact ih (h.advance here step) fun t ht => valid t (List.mem_cons_of_mem m.current ht)

def Onward (source : String) (m n : Machine) : Prop :=
  Reachable source n ∧ (n = m ∨ m.position < n.position)

theorem Reachable.onward {source : String} {m : Machine} (h : Reachable source m) :
    Onward source m m :=
  ⟨h, .inl rfl⟩

theorem Onward.next {source : String} {m n last : Machine} {t : Token} (h : Onward source m n)
    (valid : t.kind ≠ .invalid) (passed : n.Passes [t] last) : Onward source m last := by
  obtain ⟨reached, place⟩ := h
  have further := reached.position_lt passed
  refine ⟨reached.passes passed (by simpa using valid), .inr ?_⟩
  rcases place with rfl | before
  · exact further
  · exact Nat.lt_trans before further

theorem carried_onward (source : String) (m : Machine) : Carried (Onward source m) := by
  intro n last onward inside passed
  refine onward.next ?_ passed
  intro invalid
  cases current : n.current <;> rw [current] at inside invalid <;> cases invalid
  cases inside

theorem Onward.position_le {source : String} {m n : Machine} (h : Onward source m n) :
    m.position ≤ n.position := by
  rcases h.2 with rfl | before
  · exact Nat.le_refl _
  · exact Nat.le_of_lt before

theorem Onward.position_lt {source : String} {m n : Machine} (h : Onward source m n)
    (fewer : n.remaining < m.remaining) : m.position < n.position := by
  rcases h.2 with rfl | before
  · exact absurd fewer (Nat.lt_irrefl _)
  · exact before

/-- If the rule succeeds, the current token stands further on than before. -/
def Progresses {α : Type} {b : Nat} (source : String) (m : Machine) (s : Step b α) : Prop :=
  s.Ensures (fun _ n => Reachable source n ∧ m.position < n.position)
    (fun _ last => Reachable source last)

def Proceeds {α : Type} {b : Nat} (source : String) (m : Machine) (s : Step b α) : Prop :=
  s.Ensures (fun _ n => Reachable source n ∧ m.position ≤ n.position)
    (fun _ last => Reachable source last)

theorem progresses_of_upholds {α : Type} {source : String} {m : Machine} {s : Step m.remaining α}
    (h : s.Upholds (Onward source m)) : Progresses source m s := by
  cases s with
  | ok value n fewer => exact ⟨h.1, Onward.position_lt h fewer⟩
  | error e last => exact h.1.1

theorem proceeds_of_upholds {α : Type} {b : Nat} {source : String} {m : Machine} {s : Step b α}
    (h : s.Upholds (Onward source m)) : Proceeds source m s := by
  cases s with
  | ok value n fewer => exact ⟨h.1, Onward.position_le h⟩
  | error e last => exact h.1.1

theorem statement_progresses {source : String} {m : Machine} (h : Reachable source m) :
    Progresses source m m.statement := by
  have ends := statement_upholds Onward.next m h.onward
  unfold Progresses
  cases result : m.statement with
  | error e last =>
    rw [result] at ends
    exact ends.1.1
  | ok value n fewer =>
    rw [result] at ends
    obtain ⟨last, x, v, onward, rfl⟩ := ends
    exact ⟨onward.1.assign x v, onward.position_lt fewer⟩

theorem ne_endOfInput_of_mark {m : Machine} {mark : Mark} (h : m.current = .mark mark) :
    m.current ≠ .endOfInput := by
  simp [h]

def termTurn (m : Machine) (h : m.current = .mark .star) : Step m.remaining Int64 :=
  (m.advance (ne_endOfInput_of_mark h)).andThen fun _ n _ => n.factor

/-- One turn of the tail of a sum: a sign and the term after it, taken with that sign. -/
def expressionTurn (m : Machine) (h : m.current = .mark .plus ∨ m.current = .mark .minus) :
    Step m.remaining Int64 :=
  have inside : m.current ≠ .endOfInput := h.elim ne_endOfInput_of_mark ne_endOfInput_of_mark
  ((m.advance inside).andThen fun _ n _ => n.term).map fun value =>
    if m.current = .mark .plus then value else -value

theorem termTurn_opens (m : Machine) (h : m.current = .mark .star) (product : Int64) :
    (m.termTurn h).Opens (m.termTail product) fun value n => n.termTail (product * value) := by
  rw [Step.Opens, termTail, dif_pos h, Step.ending_weaken]
  exact Step.opens_andThen _ _ fun value n => n.termTail (product * value)

theorem expressionTurn_opens (m : Machine)
    (h : m.current = .mark .plus ∨ m.current = .mark .minus) (sum : Int64) :
    (m.expressionTurn h).Opens (m.expressionTail sum) fun value n =>
      n.expressionTail (sum + value) := by
  refine Step.Ensures.map ?_
  rw [expressionTail]
  by_cases plus : m.current = .mark .plus
  · rw [dif_pos plus, Step.ending_weaken]
    simp only [plus, ↓reduceIte]
    exact Step.opens_andThen _ _ fun value n => n.expressionTail (sum + value)
  · rw [dif_neg plus, dif_pos (h.resolve_left plus), Step.ending_weaken]
    simp only [plus, ↓reduceIte]
    exact Step.opens_andThen _ _ fun value n => n.expressionTail (sum + -value)

theorem termTurn_progresses {source : String} {m : Machine} (reachable : Reachable source m)
    (h : m.current = .mark .star) : Progresses source m (m.termTurn h) := by
  have inside : m.current.inExpression = true := by
    rw [h]
    rfl
  apply progresses_of_upholds
  refine (advance_upholds (carried_onward source m) reachable.onward _ inside).andThen ?_
  intro _ n _ onward
  exact factor_upholds (carried_onward source m) n onward

theorem expressionTurn_progresses {source : String} {m : Machine}
    (reachable : Reachable source m) (h : m.current = .mark .plus ∨ m.current = .mark .minus) :
    Progresses source m (m.expressionTurn h) := by
  have inside : m.current.inExpression = true := by
    rcases h with sign | sign <;> rw [sign] <;> rfl
  apply progresses_of_upholds
  refine ((advance_upholds (carried_onward source m) reachable.onward _ inside).andThen ?_).map
  intro _ n _ onward
  exact term_upholds (carried_onward source m) n onward

/-- No rule goes on from the current token: each one ends at once and leaves the machine as it
is. -/
structure Stays (m : Machine) : Prop where
  expect : ∀ mark, m.expect mark =
    .error ⟨m.position, .unexpected (.mark mark) m.current.kind m.current.lexeme⟩ m
  factor : m.factor = .error ⟨m.position, .operand m.current.kind m.current.lexeme⟩ m
  termTail : ∀ product, m.termTail product = .ok product m (Nat.lt_succ_self _)
  term : m.term = .error ⟨m.position, .operand m.current.kind m.current.lexeme⟩ m
  expressionTail : ∀ sum, m.expressionTail sum = .ok sum m (Nat.lt_succ_self _)
  expression : m.expression = .error ⟨m.position, .operand m.current.kind m.current.lexeme⟩ m
  statement : m.statement =
    .error ⟨m.position, .unexpected .name m.current.kind m.current.lexeme⟩ m

theorem stays_of_kind {m : Machine}
    (h : m.current.kind = .endOfInput ∨ m.current.kind = .invalid) : m.Stays := by
  have other {t : Token} (kind : t.kind ≠ .endOfInput ∧ t.kind ≠ .invalid) : m.current ≠ t := by
    rintro rfl
    exact h.elim kind.1 kind.2
  have unmarked (mark : Mark) : m.current ≠ .mark mark := other (by simp [Token.kind])
  have factor : m.factor = .error ⟨m.position, .operand m.current.kind m.current.lexeme⟩ m := by
    rw [Machine.factor]
    split
    next digits value current => exact absurd current (other (by simp [Token.kind]))
    next x current => exact absurd current (other (by simp [Token.kind]))
    next current => exact absurd current (unmarked .plus)
    next current => exact absurd current (unmarked .minus)
    next current => exact absurd current (unmarked .leftParen)
    · rfl
  have term : m.term = .error ⟨m.position, .operand m.current.kind m.current.lexeme⟩ m := by
    rw [Machine.term, factor]
    rfl
  exact {
    expect := fun mark => dif_neg (unmarked mark)
    factor
    termTail := fun product => by rw [Machine.termTail, dif_neg (unmarked .star)]
    term
    expressionTail := fun sum => by
      rw [Machine.expressionTail, dif_neg (unmarked .plus), dif_neg (unmarked .minus)]
    expression := by
      rw [Machine.expression, term]
      rfl
    statement := by
      unfold Machine.statement
      split
      next x current => exact absurd current (other (by simp [Token.kind]))
      · rfl }

structure Moves (source : String) (m : Machine) : Prop where
  factor : Progresses source m m.factor
  term : Progresses source m m.term
  expression : Progresses source m m.expression
  statement : Progresses source m m.statement
  termTail : ∀ product, Proceeds source m (m.termTail product)
  expressionTail : ∀ sum, Proceeds source m (m.expressionTail sum)
  termTurn : ∀ h, Progresses source m (m.termTurn h) ∧ ∀ product,
    (m.termTurn h).Opens (m.termTail product) fun value n => n.termTail (product * value)
  expressionTurn : ∀ h, Progresses source m (m.expressionTurn h) ∧ ∀ sum,
    (m.expressionTurn h).Opens (m.expressionTail sum) fun value n => n.expressionTail (sum + value)
  stays : m.current.kind = .endOfInput ∨ m.current.kind = .invalid → m.Stays

theorem Reachable.moves {source : String} {m : Machine} (h : Reachable source m) :
    m.Moves source := by
  have carried : Carried (Onward source m) := carried_onward source m
  exact {
    factor := progresses_of_upholds (factor_upholds carried m h.onward)
    term := progresses_of_upholds (term_upholds carried m h.onward)
    expression := progresses_of_upholds (expression_upholds carried m h.onward)
    statement := statement_progresses h
    termTail := fun product => proceeds_of_upholds (termTail_upholds carried m h.onward product)
    expressionTail := fun sum => proceeds_of_upholds (expressionTail_upholds carried m h.onward sum)
    termTurn := fun star => ⟨termTurn_progresses h star, termTurn_opens m star⟩
    expressionTurn := fun sign => ⟨expressionTurn_progresses h sign, expressionTurn_opens m sign⟩
    stays := stays_of_kind }

end Machine

end StraightLine
