import StraightLine.Table.Basic
import StraightLine.TokenStream
set_option autoImplicit false

namespace StraightLine

inductive Event where
  | scanned (position : Nat) (t : Token)
  | assigned (name : String) (value : Int64)
  | accepted (bindings : Nat)
  | rejected (error : Error)
  deriving DecidableEq

inductive Level where
  | trace
  | debug
  deriving DecidableEq

namespace Event

def level : Event → Level
  | scanned _ _ => .trace
  | assigned _ _ => .trace
  | accepted _ => .debug
  | rejected _ => .debug

def message : Event → String
  | scanned _ _ => "scanned token"
  | assigned _ _ => "assigned"
  | accepted _ => "program accepted"
  | rejected _ => "program rejected"

def fields : Event → List (String × String)
  | scanned position t =>
    [("position", toString position), ("kind", t.kind.label), ("lexeme", t.lexeme)]
  | assigned name value => [("name", name), ("value", toString value.toInt)]
  | accepted bindings => [("bindings", toString bindings)]
  | rejected error => [("error", error.message)]

end Event

instance : DecidableEq (Except Error Table)
  | .ok t, .ok u => decidable_of_iff (t = u) (by simp)
  | .error e, .error f => decidable_of_iff (e = f) (by simp)
  | .ok _, .error _ => .isFalse (by simp)
  | .error _, .ok _ => .isFalse (by simp)

structure Run where
  outcome : Except Error Table
  events : List Event
  deriving DecidableEq

namespace Run

def verdict : Except Error Table → Event
  | .ok table => .accepted table.size
  | .error e => .rejected e

def trace (r : Run) : List Event :=
  r.events ++ [verdict r.outcome]

end Run

structure Machine where
  current : Token
  position : Nat
  ahead : TokenStream
  table : Table
  /-- What has happened so far, the latest event first. -/
  log : List Event

namespace Machine

def remaining (m : Machine) : Nat :=
  m.ahead.length + if m.current = .endOfInput then 0 else 1

end Machine

/-- The result of a rule: a value and a machine with fewer than `bound` tokens to read, or an error
and the machine that it stopped. The bound is what makes every rule end. -/
inductive Step (bound : Nat) (α : Type) where
  | ok (value : α) (next : Machine) (fewer : next.remaining < bound)
  | error (e : Error) (last : Machine)

namespace Step

variable {α β : Type} {b : Nat}

@[inline] def weaken : Step b α → Step (b + 1) α
  | ok value next fewer => ok value next (Nat.lt_succ_of_lt fewer)
  | error e last => error e last

/-- Runs a second rule where the first one ended. The second one may read nothing. -/
@[inline] def followedBy (s : Step b α)
    (k : (value : α) → (next : Machine) → next.remaining < b → Step (next.remaining + 1) β) :
    Step b β :=
  match s with
  | ok value next fewer =>
    match k value next fewer with
    | ok value last least => ok value last (Nat.lt_of_le_of_lt (Nat.le_of_lt_succ least) fewer)
    | error e last => error e last
  | error e last => error e last

@[inline] def andThen (s : Step b α)
    (k : (value : α) → (next : Machine) → next.remaining < b → Step next.remaining β) :
    Step b β :=
  s.followedBy fun value next fewer => (k value next fewer).weaken

@[inline] def map (f : α → β) : Step b α → Step b β
  | ok value next fewer => ok (f value) next fewer
  | error e last => error e last

def machine : Step b α → Machine
  | ok _ next _ => next
  | error _ last => last

def result : Step b α → Except Error α
  | ok value _ _ => .ok value
  | error e _ => .error e

end Step

namespace Machine

def start : TokenStream → Except RejectedLiteral Machine
  | .finish position => .ok ⟨.endOfInput, position, .finish position, .empty, []⟩
  | .rejected literal => .error literal
  | .token position t rest => .ok ⟨t, position, rest, .empty, [.scanned position t]⟩

def advance (m : Machine) (h : m.current ≠ .endOfInput) : Step m.remaining Unit :=
  match hs : m.ahead with
  | .finish position =>
    .ok () { m with current := .endOfInput, position } (by simp [remaining, hs, h])
  | .rejected literal => .error literal.toError m
  | .token position t rest =>
    .ok () { m with current := t, position, ahead := rest, log := .scanned position t :: m.log } (by
      simp only [remaining, hs, h, TokenStream.length, if_false]
      split <;> omega)

def unexpected {α : Type} (m : Machine) (expected : Kind) : Step m.remaining α :=
  .error ⟨m.position, .unexpected expected m.current.kind m.current.lexeme⟩ m

def expect (m : Machine) (mark : Mark) : Step m.remaining Unit :=
  if h : m.current = .mark mark then m.advance (by simp [h]) else m.unexpected (.mark mark)

@[inline] def assign (m : Machine) (name : String) (value : Int64) : Machine :=
  { m with table := m.table.assign name value, log := .assigned name value :: m.log }

end Machine

end StraightLine
