import StraightLine.Table.Basic
set_option autoImplicit false

namespace StraightLine.Table

theorem get?_eq_some_iff {t : Table} {name : String} {value : Int64} :
    t.get? name = some value ↔ (name, value) ∈ t.toList := by
  simp only [get?, toList, Array.mem_toList_iff, Array.mem_iff_getElem?]
  constructor
  · intro h
    obtain ⟨⟨found, v⟩, hv, rfl⟩ := Option.map_eq_some_iff.1 h
    obtain ⟨i, hi, he⟩ := Option.bind_eq_some_iff.1 hv
    have place := (t.indexed name i).1 hi
    rw [he] at place
    cases place
    exact ⟨i, he⟩
  · rintro ⟨i, he⟩
    have hi := (t.indexed name i).2 (by rw [he]; rfl)
    simp [hi, he]

theorem contains_iff {t : Table} {name : String} :
    t.contains name = true ↔ (t.get? name).isSome = true := by
  rw [contains, Std.ExtTreeMap.contains_eq_isSome_getElem?, get?]
  cases hi : t.slots[name]? with
  | none => simp
  | some i => simp [t.indexed.lt_size hi]

theorem nodup_names (t : Table) : (t.toList.map Prod.fst).Nodup := by
  rw [List.Nodup, List.pairwise_iff_getElem]
  intro i j hi hj lt eq
  simp only [List.length_map, toList, Array.length_toList] at hi hj
  have hi' := (t.indexed t.entries[i].1 i).2 (by simp [hi])
  have hj' := (t.indexed t.entries[i].1 j).2 (by simpa [toList, hj] using eq.symm)
  rw [hi'] at hj'
  cases hj'
  exact Nat.lt_irrefl _ lt

theorem get?_assign (t : Table) (name other : String) (value : Int64) :
    (t.assign name value).get? other = if name = other then some value else t.get? other := by
  unfold assign get?
  split
  next i hi =>
    have inside := t.indexed.lt_size hi
    by_cases eq : name = other
    · subst eq
      simp [hi, inside]
    · cases hj : t.slots[other]? with
      | none => simp [eq]
      | some j =>
        have apart : i ≠ j := by
          rintro rfl
          have hn := (t.indexed name i).1 hi
          have ho := (t.indexed other i).1 hj
          rw [hn] at ho
          exact eq (Option.some.inj ho)
        simp [eq, Array.getElem?_setIfInBounds, apart]
  next hn =>
    rw [Std.ExtTreeMap.getElem?_insert]
    simp only [Std.compare_eq_iff_eq]
    by_cases eq : name = other
    · simp [eq]
    · cases hj : t.slots[other]? with
      | none => simp [eq]
      | some j =>
        have inside := t.indexed.lt_size hj
        simp [eq, Array.getElem?_push, Nat.ne_of_lt inside]

theorem toList_assign_of_get?_eq_none {t : Table} {name : String} (h : t.get? name = none)
    (value : Int64) : (t.assign name value).toList = t.toList ++ [(name, value)] := by
  have hs : t.slots[name]? = none := by
    cases hi : t.slots[name]? with
    | none => rfl
    | some i => simp [get?, hi, t.indexed.lt_size hi] at h
  unfold assign
  split
  next i hi => simp [hs] at hi
  · simp [toList]

theorem toList_assign_of_get?_eq_some {t : Table} {name : String} {old : Int64}
    (h : t.get? name = some old) (value : Int64) :
    (t.assign name value).toList =
      t.toList.map fun entry => if entry.1 = name then (name, value) else entry := by
  have hs : ∃ i, t.slots[name]? = some i := by
    cases hi : t.slots[name]? with
    | none => simp [get?, hi] at h
    | some i => exact ⟨i, rfl⟩
  unfold assign
  split
  next i hi =>
    apply List.ext_getElem?
    intro j
    simp only [toList, Array.getElem?_toList, Array.getElem?_setIfInBounds, List.getElem?_map]
    have inside := t.indexed.lt_size hi
    by_cases eq : i = j
    · subst eq
      have place := (t.indexed name i).1 hi
      simp only [Array.getElem?_eq_getElem inside, Option.map_some, Option.some.injEq] at place
      simp [inside, place]
    · have apart : ∀ entry, t.entries[j]? = some entry → entry.1 ≠ name := by
        intro entry he same
        have hj := (t.indexed name j).2 (by rw [he, ← same]; rfl)
        rw [hi] at hj
        exact eq (Option.some.inj hj)
      cases he : t.entries[j]? with
      | none => simp [eq]
      | some entry => simp [eq, apart entry he]
  next hn =>
    obtain ⟨i, hi⟩ := hs
    simp [hn] at hi

theorem mem_names_iff {t : Table} {x : String} :
    x ∈ t.toList.map Prod.fst ↔ (t.get? x).isSome = true := by
  rw [Option.isSome_iff_exists]
  simp [get?_eq_some_iff]

theorem names_assign (t : Table) (x : String) (value : Int64) :
    (t.assign x value).toList.map Prod.fst =
      if x ∈ t.toList.map Prod.fst then t.toList.map Prod.fst
      else t.toList.map Prod.fst ++ [x] := by
  cases bound : t.get? x with
  | none =>
    have absent : x ∉ t.toList.map Prod.fst := by simp [mem_names_iff, bound]
    rw [if_neg absent, toList_assign_of_get?_eq_none bound, List.map_append]
    rfl
  | some old =>
    have present : x ∈ t.toList.map Prod.fst := by simp [mem_names_iff, bound]
    rw [if_pos present, toList_assign_of_get?_eq_some bound, List.map_map]
    apply List.map_congr_left
    rintro ⟨y, v⟩ -
    by_cases same : y = x <;> simp [same]

theorem ofHistory_append (history : List (String × Int64)) (name : String) (value : Int64) :
    ofHistory (history ++ [(name, value)]) = (ofHistory history).assign name value := by
  simp [ofHistory]

theorem toList_foldl_assign {t : Table} {history : List (String × Int64)}
    (h : ((t.toList ++ history).map Prod.fst).Nodup) :
    (history.foldl (fun t (name, value) => t.assign name value) t).toList =
      t.toList ++ history := by
  induction history generalizing t with
  | nil => simp
  | cons entry history ih =>
    obtain ⟨name, value⟩ := entry
    have new : t.get? name = none := by
      cases found : t.get? name with
      | none => rfl
      | some old =>
        have member := List.mem_map_of_mem (f := Prod.fst) (get?_eq_some_iff.1 found)
        rw [List.map_append, List.nodup_append] at h
        exact absurd rfl (h.2.2 name member name List.mem_cons_self)
    have added := toList_assign_of_get?_eq_none new value
    rw [List.foldl_cons, ih, added, List.append_assoc]
    · rfl
    · rwa [added, List.append_assoc]

theorem toList_ofHistory {history : List (String × Int64)} (h : (history.map Prod.fst).Nodup) :
    (ofHistory history).toList = history :=
  toList_foldl_assign (t := empty) h

theorem ofHistory_toList (t : Table) : ofHistory t.toList = t :=
  toList_injective (toList_ofHistory t.nodup_names)

def map (f : String → String) (g : Int64 → Int64) (t : Table) : Table :=
  ofHistory (t.toList.map (Prod.map f g))

section Map

variable {f : String → String} (injective : Function.Injective f) (g : Int64 → Int64)

include injective

theorem toList_map (t : Table) : (t.map f g).toList = t.toList.map (Prod.map f g) := by
  apply toList_ofHistory
  have names : (t.toList.map (Prod.map f g)).map Prod.fst = (t.toList.map Prod.fst).map f := by
    simp
  rw [names]
  exact List.Pairwise.map f (fun _ _ => injective.ne) t.nodup_names

theorem get?_map (t : Table) (x : String) : (t.map f g).get? (f x) = (t.get? x).map g := by
  apply Option.ext
  intro value
  simp only [get?_eq_some_iff, Option.map_eq_some_iff, toList_map injective, List.mem_map]
  constructor
  · rintro ⟨⟨y, v⟩, inside, same⟩
    obtain ⟨name, rfl⟩ := Prod.mk.inj same
    obtain rfl := injective name
    exact ⟨v, inside, rfl⟩
  · rintro ⟨v, inside, rfl⟩
    exact ⟨(x, v), inside, rfl⟩

theorem assign_map (t : Table) (x : String) (value : Int64) :
    (t.map f g).assign (f x) (g value) = (t.assign x value).map f g := by
  apply toList_injective
  have there := get?_map injective g t x
  cases bound : t.get? x with
  | none =>
    rw [bound] at there
    rw [toList_assign_of_get?_eq_none there, toList_map injective, toList_map injective,
      toList_assign_of_get?_eq_none bound, List.map_append]
    rfl
  | some old =>
    rw [bound] at there
    rw [toList_assign_of_get?_eq_some there, toList_map injective, toList_map injective,
      toList_assign_of_get?_eq_some bound, List.map_map, List.map_map]
    apply List.map_congr_left
    rintro ⟨y, v⟩ -
    by_cases same : y = x
    · simp [same]
    · simp [same, injective.ne same]

end Map

end StraightLine.Table
