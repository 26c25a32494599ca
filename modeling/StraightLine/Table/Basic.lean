import Std.Data.ExtTreeMap
import Std.Data.Iterators
set_option autoImplicit false

namespace StraightLine

/-- The index gives the place of a name, for exactly the names that have one. -/
def Indexes (slots : Std.ExtTreeMap String Nat) (entries : Array (String × Int64)) : Prop :=
  ∀ (name : String) (i : Nat), slots[name]? = some i ↔ entries[i]?.map Prod.fst = some name

theorem Indexes.lt_size {slots : Std.ExtTreeMap String Nat} {entries : Array (String × Int64)}
    (h : Indexes slots entries) {name : String} {i : Nat} (hi : slots[name]? = some i) :
    i < entries.size := by
  have here := (h name i).1 hi
  apply Decidable.byContradiction
  intro outside
  simp [Array.getElem?_eq_none (Nat.le_of_not_lt outside)] at here

theorem Indexes.set {slots : Std.ExtTreeMap String Nat} {entries : Array (String × Int64)}
    (h : Indexes slots entries) {name : String} {i : Nat} (hi : slots[name]? = some i)
    (value : Int64) : Indexes slots (entries.setIfInBounds i (name, value)) := by
  intro other j
  have here := (h name i).1 hi
  have inside := h.lt_size hi
  rw [h, Array.getElem?_setIfInBounds]
  by_cases eq : i = j
  · subst eq
    rw [here]
    simp [inside]
  · simp [eq]

theorem Indexes.push {slots : Std.ExtTreeMap String Nat} {entries : Array (String × Int64)}
    (h : Indexes slots entries) {name : String} (hn : slots[name]? = none) (value : Int64) :
    Indexes (slots.insert name entries.size) (entries.push (name, value)) := by
  intro other j
  have absent : ¬ entries[j]?.map Prod.fst = some name := by
    intro hj
    have found := (h name j).2 hj
    rw [hn] at found
    cases found
  rw [Std.ExtTreeMap.getElem?_insert, Array.getElem?_push]
  simp only [Std.compare_eq_iff_eq]
  by_cases new : name = other <;> by_cases last : j = entries.size
  · simp [new, last]
  · subst new
    simpa [last, Ne.symm last] using absent
  · subst last
    simp [new, h other]
  · simp [new, last, h other]

/-- The entries stand in the order of first assignment. The index is determined by them, so tables
with the same entries are equal. -/
structure Table where
  slots : Std.ExtTreeMap String Nat
  entries : Array (String × Int64)
  indexed : Indexes slots entries
  deriving DecidableEq

namespace Table

def empty : Table :=
  ⟨∅, #[], by simp [Indexes]⟩

/-- Overwrites the value of a name in its place, or adds the name at the end. -/
def assign (t : Table) (name : String) (value : Int64) : Table :=
  match h : t.slots[name]? with
  | some i => ⟨t.slots, t.entries.setIfInBounds i (name, value), t.indexed.set h value⟩
  | none =>
    ⟨t.slots.insert name t.entries.size, t.entries.push (name, value), t.indexed.push h value⟩

def get? (t : Table) (name : String) : Option Int64 :=
  t.slots[name]? |>.bind (t.entries[·]?) |>.map Prod.snd

def contains (t : Table) (name : String) : Bool :=
  t.slots.contains name

def size (t : Table) : Nat :=
  t.entries.size

def isEmpty (t : Table) : Bool :=
  t.entries.isEmpty

def toList (t : Table) : List (String × Int64) :=
  t.entries.toList

def iter (t : Table) :=
  t.entries.iter

instance {m : Type → Type} [Monad m] : ForIn m Table (String × Int64) where
  forIn t := forIn t.entries

def ofHistory (history : List (String × Int64)) : Table :=
  history.foldl (fun t (name, value) => t.assign name value) empty

def renderEntry (entry : String × Int64) : String :=
  entry.1 ++ " = " ++ toString entry.2.toInt

def render (t : Table) : String :=
  "\n".intercalate (t.toList.map renderEntry)

theorem eq_of_entries_eq {t u : Table} (h : t.entries = u.entries) : t = u := by
  obtain ⟨slots, entries, indexed⟩ := t
  obtain ⟨slots', entries', indexed'⟩ := u
  subst h
  obtain rfl : slots = slots' := by
    apply Std.ExtTreeMap.ext_getElem?
    intro name
    apply Option.ext
    intro i
    rw [indexed name i, indexed' name i]
  rfl

theorem toList_injective {t u : Table} (h : t.toList = u.toList) : t = u :=
  eq_of_entries_eq (Array.toList_inj.1 h)

@[simp] theorem toList_empty : empty.toList = [] := rfl

@[simp] theorem toList_iter (t : Table) : t.iter.toList = t.toList :=
  Array.toList_iter

theorem forIn_eq_forIn_toList {m : Type → Type} [Monad m] [LawfulMonad m] {β : Type} (t : Table)
    (init : β) (f : String × Int64 → β → m (ForInStep β)) :
    forIn t init f = forIn t.toList init f :=
  Array.forIn_toList.symm

end Table

end StraightLine
