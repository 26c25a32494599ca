import Mathlib.Data.Finset.Card
import Mathlib.Data.List.Induction
import StraightLine.Table.Lemmas
set_option autoImplicit false

namespace StraightLine

theorem eraseDups_concat {α : Type} [DecidableEq α] (xs : List α) (a : α) :
    (xs ++ [a]).eraseDups = if a ∈ xs then xs.eraseDups else xs.eraseDups ++ [a] := by
  rw [List.eraseDups_append]
  by_cases before : a ∈ xs
  · simp [before, List.removeAll]
  · simp [before, List.removeAll, List.eraseDups_cons]

namespace Table

theorem toList_eq_filterMap (t : Table) :
    t.toList = (t.toList.map Prod.fst).filterMap fun x => (t.get? x).map fun v => (x, v) := by
  have found : ∀ entry ∈ t.toList, (t.get? entry.1).map (fun v => (entry.1, v)) = some entry := by
    rintro ⟨x, v⟩ inside
    rw [get?_eq_some_iff.2 inside]
    rfl
  rw [List.filterMap_map]
  exact ((List.filterMap_congr found).trans List.filterMap_some).symm

theorem ext_names {t u : Table} (names : t.toList.map Prod.fst = u.toList.map Prod.fst)
    (values : ∀ x, t.get? x = u.get? x) : t = u := by
  apply toList_injective
  rw [toList_eq_filterMap t, toList_eq_filterMap u, names]
  simp only [values]

def assigned (history : List (String × Int64)) : List String :=
  (history.map Prod.fst).eraseDups

def lastValue? (history : List (String × Int64)) (x : String) : Option Int64 :=
  (history.filter (·.1 = x)).getLast?.map Prod.snd

theorem names_ofHistory (history : List (String × Int64)) :
    (ofHistory history).toList.map Prod.fst = assigned history := by
  induction history using List.reverseRecOn with
  | nil => rfl
  | append_singleton history entry ih =>
    obtain ⟨x, v⟩ := entry
    rw [ofHistory_append, names_assign, ih, assigned, assigned, List.map_append, List.map_singleton,
      eraseDups_concat]
    simp only [List.mem_eraseDups]

theorem get?_ofHistory (history : List (String × Int64)) (x : String) :
    (ofHistory history).get? x = lastValue? history x := by
  induction history using List.reverseRecOn with
  | nil => rfl
  | append_singleton history entry ih =>
    obtain ⟨y, v⟩ := entry
    rw [ofHistory_append, get?_assign, ih, lastValue?, lastValue?, List.filter_append]
    by_cases same : y = x <;> simp [same]

theorem assigned_eq_nil_iff {history : List (String × Int64)} :
    assigned history = [] ↔ history = [] := by
  cases history with
  | nil => simp [assigned]
  | cons entry history => simp [assigned, List.eraseDups_cons]

theorem ofHistory_eq_iff {history history' : List (String × Int64)} :
    ofHistory history = ofHistory history' ↔
      assigned history = assigned history' ∧
        ∀ x, lastValue? history x = lastValue? history' x := by
  simp only [← names_ofHistory, ← get?_ofHistory]
  constructor
  · intro same
    simp [same]
  · rintro ⟨names, values⟩
    exact ext_names names values

theorem ofHistory_append_congr {history history' : List (String × Int64)}
    (same : ofHistory history = ofHistory history') (more : List (String × Int64)) :
    ofHistory (history ++ more) = ofHistory (history' ++ more) := by
  unfold ofHistory at same ⊢
  rw [List.foldl_append, List.foldl_append, same]

theorem get?_of_slot {t : Table} {x : String} {i : Nat} (found : t.slots[x]? = some i)
    (inside : i < t.entries.size) : t.get? x = some t.entries[i].2 := by
  simp [get?, found, inside]

theorem entries_assign_of_slot {t : Table} {x : String} {i : Nat} (found : t.slots[x]? = some i)
    (inside : i < t.entries.size) (v : Int64) :
    (t.assign x v).entries = t.entries.set i (x, v) := by
  unfold assign
  split
  next j here =>
    obtain rfl : i = j := Option.some.inj (found.symm.trans here)
    simp [Array.setIfInBounds, inside]
  next none => simp [found] at none

/-- How the parts of a table, and what can be asked of it, belong together and to its history. -/
structure Represents (t : Table) (history : List (String × Int64)) : Prop where
  distinct : (t.entries.toList.map Prod.fst).Nodup
  slot_iff : ∀ (x : String) (i : Nat), t.slots[x]? = some i ↔ ∃ v, t.entries[i]? = some (x, v)
  /-- Where a place is looked up, there is an entry to be read or overwritten. -/
  slot_used : ∀ (x : String) (i : Nat), t.slots[x]? = some i →
    ∃ inside : i < t.entries.size, t.get? x = some t.entries[i].2 ∧
      ∀ v, (t.assign x v).entries = t.entries.set i (x, v)
  get?_iff : ∀ (x : String) (v : Int64), t.get? x = some v ↔ (x, v) ∈ t.iter.toList
  contains_iff : ∀ x : String, t.contains x = true ↔ (t.get? x).isSome = true
  size_eq : t.size = (history.map Prod.fst).toFinset.card
  isEmpty_iff : t.isEmpty = true ↔ history = []
  toList_eq : t.toList = t.iter.toList
  forIn_eq : ∀ {m : Type → Type} [Monad m] [LawfulMonad m] {β : Type} (init : β)
    (f : String × Int64 → β → m (ForInStep β)), forIn t init f = forIn t.iter.toList init f

theorem size_ofHistory (history : List (String × Int64)) :
    (ofHistory history).size = (history.map Prod.fst).toFinset.card := by
  have names : (history.map Prod.fst).toFinset =
      ((ofHistory history).toList.map Prod.fst).toFinset := by
    ext x
    rw [names_ofHistory, assigned, List.mem_toFinset, List.mem_toFinset, List.mem_eraseDups]
  rw [names, List.toFinset_card_of_nodup (nodup_names _), List.length_map]
  rfl

theorem isEmpty_ofHistory_iff (history : List (String × Int64)) :
    (ofHistory history).isEmpty = true ↔ history = [] := by
  rw [← assigned_eq_nil_iff, ← names_ofHistory, List.map_eq_nil_iff, isEmpty, toList,
    Array.isEmpty_iff, Array.toList_eq_nil_iff]

/-- Every table that assignments make is well indexed, and lists what was assigned. -/
theorem represents_ofHistory (history : List (String × Int64)) :
    (ofHistory history).Represents history where
  distinct := nodup_names _
  slot_iff x i := by
    rw [(ofHistory history).indexed x i, Option.map_eq_some_iff]
    simp
  slot_used x i found :=
    have inside := (ofHistory history).indexed.lt_size found
    ⟨inside, get?_of_slot found inside, entries_assign_of_slot found inside⟩
  get?_iff x v := by rw [toList_iter, get?_eq_some_iff]
  contains_iff x := contains_iff
  size_eq := size_ofHistory history
  isEmpty_iff := isEmpty_ofHistory_iff history
  toList_eq := (toList_iter _).symm
  forIn_eq init f := by rw [toList_iter, forIn_eq_forIn_toList]

theorem beq_eq (t u : Table) : (t == u) = (t.entries == u.entries && t.slots == u.slots) := by
  rw [Bool.eq_iff_iff, Bool.and_eq_true, beq_iff_eq, beq_iff_eq, beq_iff_eq, Table.mk.injEq,
    and_comm]

/-- A table lists the names in the order of their first assignments with the values of their last
ones, and a comparison of tables sees this and nothing else. -/
theorem ofHistory_beq_iff (history history' : List (String × Int64)) :
    ((ofHistory history).iter.toList.map Prod.fst = assigned history ∧
      ∀ entry ∈ (ofHistory history).iter.toList,
        lastValue? history entry.1 = some entry.2) ∧
    (ofHistory history == ofHistory history') =
      ((ofHistory history).entries == (ofHistory history').entries &&
        (ofHistory history).slots == (ofHistory history').slots) ∧
    ((ofHistory history == ofHistory history') = true ↔
      assigned history = assigned history' ∧
        ∀ x, lastValue? history x = lastValue? history' x) ∧
    ((∀ x, (ofHistory history).get? x = (ofHistory history').get? x) →
      assigned history ≠ assigned history' →
        (ofHistory history == ofHistory history') = false) ∧
    ((ofHistory history == ofHistory history') = true →
      ∀ more, (ofHistory (history ++ more) == ofHistory (history' ++ more)) = true) := by
  refine ⟨⟨?_, ?_⟩, beq_eq _ _, ?_, ?_, ?_⟩
  · rw [toList_iter, names_ofHistory]
  · intro entry inside
    rw [toList_iter, ← get?_eq_some_iff, get?_ofHistory] at inside
    exact inside
  · rw [beq_iff_eq, ofHistory_eq_iff]
  · intro _ names
    rw [beq_eq_false_iff_ne, Ne, ofHistory_eq_iff]
    exact fun same => names same.1
  · intro same more
    rw [beq_iff_eq] at same ⊢
    exact ofHistory_append_congr same more

-- The same values under the same names, but `b` came first.
example : (ofHistory [("a", 1), ("b", 2)] == ofHistory [("b", 2), ("a", 1)]) = false := by
  decide +kernel

end Table

end StraightLine
