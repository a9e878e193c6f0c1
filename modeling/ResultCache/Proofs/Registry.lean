import ResultCache.Registry

/-! The keys of a registered value. From its count alone a registry tells whether a value has a key at
all, and whether it has another key besides a given one. -/
namespace ResultCache.Registry
variable {K V : Type} [BEq K] [Hashable K] [BEq V] [Hashable V] {r : Registry K V} {j k : K} {v : V}

@[simp] theorem get?_empty (k : K) : (empty : Registry K V).get? k = none := Std.HashMap.getElem?_empty

private theorem count_erase [EquivBEq V] [LawfulHashable V] (h : r.get? k = some v) :
    (r.erase k).count v = r.count v - 1 := by
  obtain ⟨entries, bag, hcount⟩ := r
  have hk : entries[k]? = some v := h
  have hbag : (erase ⟨entries, bag, hcount⟩ k).bag = bag.erase v := by
    change entries[k]?.elim bag bag.erase = bag.erase v
    rw [hk, Option.elim_some]
  rw [count, hbag, Bag.count_erase, if_pos BEq.rfl]
  rfl

variable [EquivBEq K] [LawfulHashable K]

@[simp] theorem get?_insert : (r.insert k v).get? j = if k == j then some v else r.get? j := by
  rw [get?, entries_insert, Std.HashMap.getElem?_insert, get?]

@[simp] theorem get?_erase : (r.erase k).get? j = if k == j then none else r.get? j := by
  rw [get?, entries_erase, Std.HashMap.getElem?_erase, get?]

@[simp] theorem get?_filter {keeps : V → Bool} : (r.filter keeps).get? k = (r.get? k).filter keeps := by
  rw [get?, entries_filter, Std.HashMap.getElem?_filter, Option.pfilter_eq_filter, get?]

theorem contains_of_get [EquivBEq V] [LawfulHashable V] (h : r.get? k = some v) :
    r.contains v = true := by
  obtain ⟨key, -, hm⟩ := Std.HashMap.getElem?_eq_some_iff_exists_beq_and_mem_toList.mp h
  refine (r.bag.contains_iff v).mpr ?_
  rw [r.count_bag v]
  exact List.countP_pos_iff.mpr ⟨v, List.mem_map_of_mem hm, BEq.rfl⟩

variable [LawfulBEq V]

theorem contains_iff : r.contains v = true ↔ ∃ k, r.get? k = some v := by
  refine ⟨fun h => ?_, fun ⟨k, hk⟩ => contains_of_get hk⟩
  have hcount : 0 < r.count v := (r.bag.contains_iff v).mp h
  rw [r.count_eq, values, valuesOf, List.count_pos_iff] at hcount
  obtain ⟨⟨key, w⟩, hm, rfl⟩ := List.mem_map.mp hcount
  exact ⟨key, Std.HashMap.getElem?_eq_some_iff_exists_beq_and_mem_toList.mpr ⟨key, BEq.rfl, hm⟩⟩

/-- A value counts once if it is registered under no other key. -/
theorem count_eq_one_iff (h : r.get? k = some v) :
    r.count v = 1 ↔ ∀ j, (k == j) = false → r.get? j ≠ some v := by
  have hpos : 0 < r.count v := (r.bag.contains_iff v).mp (contains_of_get h)
  -- a second key of the value is a key of it in the registry without the first
  have hrest : (∃ j, (r.erase k).get? j = some v) ↔ 0 < r.count v - 1 := by
    rw [← contains_iff, ← count_erase h]
    exact (r.erase k).bag.contains_iff v
  constructor
  · intro hone j hj hv
    have : 0 < r.count v - 1 := hrest.mp ⟨j, by simpa [hj] using hv⟩
    omega
  · intro hother
    have hnone : ¬ 0 < r.count v - 1 := by
      intro hmore
      obtain ⟨j, hj⟩ := hrest.mpr hmore
      rw [get?_erase] at hj
      split at hj
      · cases hj
      · next hkj => exact hother j (Bool.eq_false_iff.mpr hkj) hj
    omega

end ResultCache.Registry
