import ResultCache.Proofs.Tier.Ownership

/-! Which values a weak tier has pinned. A lookup puts the value it finds in front and the ring keeps as
many as it has places for; a clear empties it, and nothing else changes it. -/
namespace ResultCache.Tier
variable {K V : Type} [BEq K] [Hashable K] [BEq V] [Hashable V]

private theorem toList_trimmed {pinCount : Nat} {p : Pins V} (h : p.size ≤ pinCount) (v : V) :
    (if pinCount < (p.push v).size then (p.push v).dropOldest else p.push v).toList =
      (v :: p.toList).take pinCount := by
  have hsize : (p.push v).size = p.size + 1 := rfl
  have hlength : (v :: p.toList).length = p.size + 1 := by rw [List.length_cons, p.length_toList]
  split
  · have hfull : pinCount = (v :: p.toList).length - 1 := by omega
    rw [Pins.toList_dropOldest, Pins.toList_push, List.dropLast_eq_take, hfull]
  · rw [Pins.toList_push, List.take_of_length_le (by omega)]

namespace Contents
variable {pinCount : Nat} {c : Contents K V}

private theorem pins_lookedUp (h : c.pins.size ≤ pinCount) (inUse : V → Bool) (k : K) :
    (c.lookedUp inUse pinCount k).pins.toList =
      ((c.find inUse k).toList ++ c.pins.toList).take pinCount := by
  have hfits : c.pins.toList.take pinCount = c.pins.toList :=
    List.take_of_length_le (by rwa [c.pins.length_toList])
  rw [lookedUp, find]
  cases c.entries[k]? with
  | none => exact hfits.symm
  | some handle =>
    dsimp only
    rw [Option.map_some, Option.filter_some]
    split
    · exact toList_trimmed h handle.referent
    · exact hfits.symm

/-- The pins after a request, the newest first. -/
theorem pins_run (h : c.pins.size ≤ pinCount) (inUse : V → Bool) (evicted : List K)
    (request : Request K V) :
    (c.run inUse pinCount evicted request).pins.toList =
      match request with
      | .get k => ((c.drain.find inUse k).toList ++ c.pins.toList).take pinCount
      | .clear => []
      | _ => c.pins.toList := by
  cases request with
  | get k => exact pins_lookedUp (c := c.drain) h inUse k
  | _ => rfl

end Contents

theorem pins_removeEach (inUse : V → Bool) (t : Tier K V) (keys : List K) :
    (Cache.removeEach inUse t keys).pins = t.pins :=
  contents_removeEach (P := fun c => c.pins = t.pins) (fun _ _ _ h => h) rfl inUse

variable [EquivBEq K] [LawfulHashable K] [LawfulBEq V]

/-- A pass leaves a pinned value registered under all its keys and reports none of them. -/
theorem collect_keeps_pinned {t : Tier K V} {v : V} (hv : v ∈ t.pins.toList) (inUse : V → Bool) {k : K}
    (hk : t.queue.registered.get? k = some v) :
    (t.collect inUse).1.contains k = false ∧
      (t.collect inUse).2.queue.registered.get? k = some v := by
  have hpinned : t.contents.pins.contains v = true := Pins.contains_iff.mpr hv
  have howned : t.contents.OwnedBesides inUse k v := .inr (.inl hpinned)
  have hfree : t.contents.isFree inUse v = false := (Contents.isFree_eq_false_iff hk).mpr howned
  refine ⟨?_, (Contents.registered_collect_iff (c := t.contents)).mpr ⟨hk, howned⟩⟩
  have hreleased : (t.collect inUse).1.contains k =
      (t.queue.registered.get? k).any (t.contents.isFree inUse) :=
    Contents.contains_released (c := t.contents)
  rw [hreleased, hk]
  exact hfree

end ResultCache.Tier
