import StraightLine.Evaluation
set_option autoImplicit false

namespace StraightLine

namespace Step

variable {α β : Type} {b : Nat}

def Ensures (s : Step b α) (done : α → Machine → Prop) (failed : Error → Machine → Prop) : Prop :=
  match s with
  | ok value next _ => done value next
  | error e last => failed e last

theorem Ensures.mono {s : Step b α} {P Q : α → Machine → Prop} {F G : Error → Machine → Prop}
    (h : s.Ensures P F) (done : ∀ v n, P v n → Q v n) (failed : ∀ e n, F e n → G e n) :
    s.Ensures Q G := by
  cases s with
  | ok value next fewer => exact done _ _ h
  | error e last => exact failed _ _ h

theorem Ensures.imp {s : Step b α} {P Q : α → Machine → Prop} {F : Error → Machine → Prop}
    (h : s.Ensures P F) (done : ∀ v n, P v n → Q v n) : s.Ensures Q F :=
  h.mono done fun _ _ failed => failed

theorem Ensures.weaken {s : Step b α} {P : α → Machine → Prop} {F : Error → Machine → Prop}
    (h : s.Ensures P F) : s.weaken.Ensures P F := by
  cases s with
  | ok value next fewer => exact h
  | error e last => exact h

theorem Ensures.map {s : Step b α} {f : α → β} {P : β → Machine → Prop}
    {F : Error → Machine → Prop} (h : s.Ensures (fun v n => P (f v) n) F) :
    (s.map f).Ensures P F := by
  cases s with
  | ok value next fewer => exact h
  | error e last => exact h

theorem Ensures.followedBy {s : Step b α}
    {k : (value : α) → (next : Machine) → next.remaining < b → Step (next.remaining + 1) β}
    {P : α → Machine → Prop} {Q : β → Machine → Prop} {F : Error → Machine → Prop}
    (first : s.Ensures P F)
    (second : ∀ v n (fewer : n.remaining < b), P v n → (k v n fewer).Ensures Q F) :
    (s.followedBy k).Ensures Q F := by
  cases s with
  | ok value next fewer =>
    have more := second value next fewer first
    unfold Step.followedBy
    dsimp only
    cases result : k value next fewer with
    | ok value' last least =>
      rw [result] at more
      exact more
    | error e last =>
      rw [result] at more
      exact more
  | error e last => exact first

theorem Ensures.andThen {s : Step b α}
    {k : (value : α) → (next : Machine) → next.remaining < b → Step next.remaining β}
    {P : α → Machine → Prop} {Q : β → Machine → Prop} {F : Error → Machine → Prop}
    (first : s.Ensures P F)
    (second : ∀ v n (fewer : n.remaining < b), P v n → (k v n fewer).Ensures Q F) :
    (s.andThen k).Ensures Q F :=
  first.followedBy fun v n fewer h => (second v n fewer h).weaken

end Step

end StraightLine
