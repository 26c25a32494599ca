import StraightLine.Proofs.Progress
import StraightLine.Proofs.Sessions
set_option autoImplicit false

/-! # Every run ends

To say that the rules end of their own accord, they are written down once more with the rules that
they call left open, and put together to a given depth: below that everything is cut off. Each
call and each turn of a loop takes one from the depth. The cut-off is never reached when the depth
exceeds three times the number of tokens, so the rules need none. A scanner that is stepped through
comes to the end of its list after as many steps as the text has characters, and one more. -/

namespace StraightLine

namespace Step

variable {α β : Type} {b c : Nat}

def loosen (s : Step (c + 1) α) (h : c < b) : Step b α :=
  match s with
  | ok value last least => ok value last (Nat.lt_of_le_of_lt (Nat.le_of_lt_succ least) h)
  | error e last => error e last

def followedBy? (s : Step b α)
    (k : (value : α) → (next : Machine) → next.remaining < b →
      Option (Step (next.remaining + 1) β)) : Option (Step b β) :=
  match s with
  | ok value next fewer => (k value next fewer).map fun t => t.loosen fewer
  | error e last => some (error e last)

def andThen? (s : Step b α)
    (k : (value : α) → (next : Machine) → next.remaining < b → Option (Step next.remaining β)) :
    Option (Step b β) :=
  s.followedBy? fun value next fewer => (k value next fewer).map weaken

theorem followedBy?_eq_some (s : Step b α)
    {k? : (value : α) → (next : Machine) → next.remaining < b →
      Option (Step (next.remaining + 1) β)}
    {k : (value : α) → (next : Machine) → next.remaining < b → Step (next.remaining + 1) β}
    (h : ∀ value next fewer, k? value next fewer = some (k value next fewer)) :
    s.followedBy? k? = some (s.followedBy k) := by
  cases s with
  | error e last => rfl
  | ok value next fewer =>
    rw [followedBy?, h, followedBy]
    cases k value next fewer <;> rfl

theorem andThen?_eq_some (s : Step b α)
    {k? : (value : α) → (next : Machine) → next.remaining < b → Option (Step next.remaining β)}
    {k : (value : α) → (next : Machine) → next.remaining < b → Step next.remaining β}
    (h : ∀ value next fewer, k? value next fewer = some (k value next fewer)) :
    s.andThen? k? = some (s.andThen k) := by
  apply followedBy?_eq_some
  intro value next fewer
  rw [h]
  rfl

end Step

namespace Machine

theorem ne_endOfInput_of_name {m : Machine} {name : String} (h : m.current = .name name) :
    m.current ≠ .endOfInput := by
  simp [h]

theorem ne_endOfInput_of_literal {m : Machine} {digits : String} {value : Int64}
    (h : m.current = .literal digits value) : m.current ≠ .endOfInput := by
  simp [h]

theorem remaining_lt (m : Machine) : m.remaining < m.remaining + 1 :=
  Nat.lt_succ_self _

theorem remaining_assign_lt (m : Machine) (name : String) (value : Int64) :
    (m.assign name value).remaining < m.remaining + 1 :=
  Nat.lt_succ_self _

end Machine

structure Rules where
  factor : (m : Machine) → Option (Step m.remaining Int64)
  termTail : (m : Machine) → Int64 → Option (Step (m.remaining + 1) Int64)
  term : (m : Machine) → Option (Step m.remaining Int64)
  expressionTail : (m : Machine) → Int64 → Option (Step (m.remaining + 1) Int64)
  expression : (m : Machine) → Option (Step m.remaining Int64)
  statement : (m : Machine) → Option (Step m.remaining Unit)
  run : Machine → Option Run

namespace Rules

def cutOff : Rules where
  factor _ := none
  termTail _ _ := none
  term _ := none
  expressionTail _ _ := none
  expression _ := none
  statement _ := none
  run _ := none

open Machine in
/-- What every rule says, with the rules that it calls and the next turn of its loop left to the
given ones. -/
def deepen (r : Rules) : Rules where
  factor m :=
    match h : m.current with
    | .literal _ value => some ((m.advance (ne_endOfInput_of_literal h)).map fun _ => value)
    | .name name =>
      match m.table.get? name with
      | some value => some ((m.advance (ne_endOfInput_of_name h)).map fun _ => value)
      | none => some (.error ⟨m.position, .unbound name⟩ m)
    | .mark .plus => (m.advance (ne_endOfInput_of_mark h)).andThen? fun _ n _ => r.factor n
    | .mark .minus =>
      ((m.advance (ne_endOfInput_of_mark h)).andThen? fun _ n _ => r.factor n).map fun s =>
        s.map fun value => -value
    | .mark .leftParen =>
      (m.advance (ne_endOfInput_of_mark h)).andThen? fun _ n _ =>
        (r.expression n).bind fun s => s.andThen? fun value n _ =>
          some ((n.expect .rightParen).map fun _ => value)
    | t => some (.error ⟨m.position, .operand t.kind t.lexeme⟩ m)
  termTail m product :=
    if h : m.current = .mark .star then
      ((m.advance (ne_endOfInput_of_mark h)).andThen? fun _ n _ =>
        (r.factor n).bind fun s => s.followedBy? fun value n _ =>
          r.termTail n (product * value)).map Step.weaken
    else some (.ok product m m.remaining_lt)
  term m :=
    (r.factor m).bind fun s => s.followedBy? fun value n _ =>
      (r.termTail n 1).map fun t => t.map fun product => value * product
  expressionTail m sum :=
    if h : m.current = .mark .plus then
      ((m.advance (ne_endOfInput_of_mark h)).andThen? fun _ n _ =>
        (r.term n).bind fun s => s.followedBy? fun value n _ =>
          r.expressionTail n (sum + value)).map Step.weaken
    else if h : m.current = .mark .minus then
      ((m.advance (ne_endOfInput_of_mark h)).andThen? fun _ n _ =>
        (r.term n).bind fun s => s.followedBy? fun value n _ =>
          r.expressionTail n (sum + -value)).map Step.weaken
    else some (.ok sum m m.remaining_lt)
  expression m :=
    (r.term m).bind fun s => s.followedBy? fun value n _ =>
      (r.expressionTail n 0).map fun t => t.map fun sum => value + sum
  statement m :=
    match h : m.current with
    | .name name =>
      (m.advance (ne_endOfInput_of_name h)).andThen? fun _ n _ =>
        (n.expect .assign).andThen? fun _ n _ =>
          (r.expression n).bind fun s => s.andThen? fun value n _ =>
            some ((n.expect .semicolon).followedBy fun _ n _ =>
              .ok () (n.assign name value) (n.remaining_assign_lt name value))
    | _ => some (m.unexpected .name)
  run m :=
    if m.current = .endOfInput then some ⟨.ok m.table, m.log.reverse⟩
    else (r.statement m).bind fun s => match s with
      | .ok () next _ => r.run next
      | .error e last => some ⟨.error e, last.log.reverse⟩

def within : Nat → Rules
  | 0 => cutOff
  | depth + 1 => (within depth).deepen

structure Agrees (depth : Nat) (r : Rules) : Prop where
  factor : ∀ m, 3 * m.remaining < depth → r.factor m = some m.factor
  termTail : ∀ m product, 3 * m.remaining < depth → r.termTail m product = some (m.termTail product)
  term : ∀ m, 3 * m.remaining + 1 < depth → r.term m = some m.term
  expressionTail : ∀ m sum, 3 * m.remaining < depth →
    r.expressionTail m sum = some (m.expressionTail sum)
  expression : ∀ m, 3 * m.remaining + 2 < depth → r.expression m = some m.expression
  statement : ∀ m, 3 * m.remaining < depth → r.statement m = some m.statement
  run : ∀ m, 3 * m.remaining + 1 < depth → r.run m = some m.run

section Deepen

variable {depth : Nat} {r : Rules}

theorem Agrees.deepen_factor (h : r.Agrees depth) (m : Machine)
    (deep : 3 * m.remaining < depth + 1) : r.deepen.factor m = some m.factor := by
  have factor (n : Machine) (fewer : n.remaining < m.remaining) := h.factor n (by omega)
  have expression (n : Machine) (fewer : n.remaining < m.remaining) := h.expression n (by omega)
  obtain ⟨current, position, ahead, table, log⟩ := m
  rw [Machine.factor]
  cases current with
  | literal digits value => rfl
  | name x =>
    simp only [deepen]
    cases table.get? x <;> rfl
  | invalid c => rfl
  | endOfInput => rfl
  | mark mark =>
    cases mark with
    | plus => exact Step.andThen?_eq_some _ fun _ n fewer => factor n fewer
    | minus =>
      exact congrArg (Option.map fun s => s.map fun value => -value)
        (Step.andThen?_eq_some _ fun _ n fewer => factor n fewer)
    | leftParen =>
      apply Step.andThen?_eq_some
      intro _ n fewer
      rw [expression n fewer]
      exact Step.andThen?_eq_some _ fun value n _ => rfl
    | assign | semicolon | star | rightParen => rfl

theorem Agrees.deepen_termTail (h : r.Agrees depth) (m : Machine) (product : Int64)
    (deep : 3 * m.remaining < depth + 1) :
    r.deepen.termTail m product = some (m.termTail product) := by
  rw [Machine.termTail]
  unfold deepen
  dsimp only
  split
  next current =>
    refine congrArg (Option.map Step.weaken) (Step.andThen?_eq_some _ fun _ n fewer => ?_)
    rw [h.factor n (by omega)]
    exact Step.followedBy?_eq_some _ fun value n' fewer' => h.termTail n' _ (by omega)
  · rfl

theorem Agrees.deepen_term (h : r.Agrees depth) (m : Machine)
    (deep : 3 * m.remaining + 1 < depth + 1) : r.deepen.term m = some m.term := by
  rw [Machine.term]
  unfold deepen
  dsimp only
  rw [h.factor m (by omega)]
  refine Step.followedBy?_eq_some _ fun value n fewer => ?_
  rw [h.termTail n 1 (by omega)]
  rfl

theorem Agrees.deepen_expressionTail (h : r.Agrees depth) (m : Machine) (sum : Int64)
    (deep : 3 * m.remaining < depth + 1) :
    r.deepen.expressionTail m sum = some (m.expressionTail sum) := by
  -- Both signs call the same rules and differ only in what the sum becomes.
  have turn (n : Machine) (fewer : n.remaining < m.remaining) (total : Int64 → Int64) :
      ((r.term n).bind fun s => s.followedBy? fun value n _ => r.expressionTail n (total value)) =
        some (n.term.followedBy fun value n _ => n.expressionTail (total value)) := by
    rw [h.term n (by omega)]
    exact Step.followedBy?_eq_some _ fun value n' fewer' => h.expressionTail n' _ (by omega)
  rw [Machine.expressionTail]
  unfold deepen
  dsimp only
  split
  next plus =>
    refine congrArg (Option.map Step.weaken) (Step.andThen?_eq_some _ fun _ n fewer => ?_)
    exact turn n fewer fun value => sum + value
  · split
    next minus =>
      refine congrArg (Option.map Step.weaken) (Step.andThen?_eq_some _ fun _ n fewer => ?_)
      exact turn n fewer fun value => sum + -value
    · rfl

theorem Agrees.deepen_expression (h : r.Agrees depth) (m : Machine)
    (deep : 3 * m.remaining + 2 < depth + 1) : r.deepen.expression m = some m.expression := by
  rw [Machine.expression]
  unfold deepen
  dsimp only
  rw [h.term m (by omega)]
  refine Step.followedBy?_eq_some _ fun value n fewer => ?_
  rw [h.expressionTail n 0 (by omega)]
  rfl

theorem Agrees.deepen_statement (h : r.Agrees depth) (m : Machine)
    (deep : 3 * m.remaining < depth + 1) : r.deepen.statement m = some m.statement := by
  have expression (n : Machine) (fewer : n.remaining < m.remaining) := h.expression n (by omega)
  obtain ⟨current, position, ahead, table, log⟩ := m
  unfold Machine.statement
  cases current with
  | name x =>
    refine Step.andThen?_eq_some _ fun _ n fewer => ?_
    refine Step.andThen?_eq_some _ fun _ n' fewer' => ?_
    rw [expression n' (by omega)]
    exact Step.andThen?_eq_some _ fun value n _ => rfl
  | literal | invalid | endOfInput | mark => rfl

theorem Agrees.deepen_run (h : r.Agrees depth) (m : Machine)
    (deep : 3 * m.remaining + 1 < depth + 1) : r.deepen.run m = some m.run := by
  rw [Machine.run]
  unfold deepen
  dsimp only
  split
  · rfl
  · rw [h.statement m (by omega), Option.bind_some]
    cases m.statement with
    | ok value next fewer => exact h.run next (by omega)
    | error e last => rfl

theorem Agrees.deepen (h : r.Agrees depth) : r.deepen.Agrees (depth + 1) :=
  ⟨h.deepen_factor, h.deepen_termTail, h.deepen_term, h.deepen_expressionTail, h.deepen_expression,
    h.deepen_statement, h.deepen_run⟩

end Deepen

theorem agrees_within (depth : Nat) : (within depth).Agrees depth := by
  induction depth with
  | zero => constructor <;> intros <;> omega
  | succ depth ih => exact ih.deepen

def runSource (r : Rules) (source : String) : Option Run :=
  match Machine.start (.ofSource source) with
  | .ok m => r.run m
  | .error literal => some ⟨.error literal.toError, []⟩

end Rules

theorem TokenStream.length_ofText_le (offset : Nat) (text : List Char) :
    (ofText offset text).length ≤ text.length := by
  fun_induction ofText offset text with
  | case1 | case2 => exact Nat.zero_le _
  | case3 offset text t rest found shorter ih =>
    rw [length]
    omega

theorem Machine.remaining_of_start {s : TokenStream} {m : Machine} (h : start s = .ok m) :
    m.remaining ≤ s.length := by
  cases s with
  | finish position =>
    cases h
    exact Nat.le_refl _
  | rejected r => cases h
  | token position t rest =>
    cases h
    change rest.length + (if t = .endOfInput then 0 else 1) ≤ rest.length + 1
    split <;> omega

theorem Rules.runSource_within {source : String} {depth : Nat}
    (deep : 3 * (strip source).length + 2 ≤ depth) :
    (within depth).runSource source = some (Run.ofSource source) := by
  unfold runSource Run.ofSource Run.ofStream
  cases start : Machine.start (.ofSource source) with
  | error r => rfl
  | ok m =>
    have tokens := Machine.remaining_of_start start
    have characters := TokenStream.length_ofText_le 0 (strip source)
    rw [TokenStream.ofSource] at tokens
    exact (agrees_within depth).run m (by omega)

namespace Scanner

theorem length_collect_le (s : Scanner) : s.collect.1.length ≤ s.pending := by
  fun_induction collect s with
  | case1 s last h => exact Nat.zero_le _
  | case2 s r next h fewer more last rest ih =>
    rw [rest] at ih
    change more.length + 1 ≤ s.pending
    change more.length ≤ next.pending at ih
    omega

theorem next?_after_steps (s : Scanner) (i : Nat) :
    (s.after (List.replicate i .step)).next?.1 = s.collect.1[i]? := by
  fun_induction collect s generalizing i with
  | case1 s last h =>
    obtain rfl := eq_of_next?_eq_none h
    have same : last.after (List.replicate i .step) = last := by
      induction i with
      | zero => rfl
      | succ i ih =>
        rw [List.replicate_succ, after, answer]
        dsimp only
        rw [h]
        exact ih
    rw [same, h]
    rfl
  | case2 s r next h fewer more last rest ih =>
    rw [rest] at ih
    cases i with
    | zero =>
      rw [List.replicate_zero, after, h]
      rfl
    | succ i =>
      rw [List.replicate_succ, after, answer]
      dsimp only
      rw [h]
      exact ih i

end Scanner

/-- The run of a source moves on with every rule and every turn of a loop, and so it ends without
being cut off, and so does the list of its tokens. -/
theorem reading_ends (source : String) :
    (∀ m, Machine.Reachable source m → m.Moves source) ∧
    (∀ depth, 3 * (strip source).length + 2 ≤ depth →
      (Rules.within depth).runSource source = some (Run.ofSource source)) ∧
    ∃ results : List Scanned, results.length ≤ (strip source).length + 1 ∧
      ∀ i, ((Scanner.ofSource source).after (List.replicate i .step)).next?.1 = results[i]? :=
  ⟨fun _ reachable => reachable.moves, fun _ deep => Rules.runSource_within deep,
    (Scanner.ofSource source).collect.1, Scanner.length_collect_le _, Scanner.next?_after_steps _⟩

-- A depth that is too small for the source does cut off its run.
example : (Rules.within 5).runSource "x = -(1);" = none ∧
    (Rules.within 26).runSource "x = -(1);" = some (Run.ofSource "x = -(1);") := by
  decide +kernel

end StraightLine
