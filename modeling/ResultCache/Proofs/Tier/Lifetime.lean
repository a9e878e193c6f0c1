import ResultCache.Proofs.Tier.Faithful
import ResultCache.Proofs.Tier.Ownership

/-! The life of a value in a weak tier. It ends when the last owner is gone, and only putting the value again begins
another one. -/
namespace ResultCache.Tier
variable {K V : Type} [BEq K] [Hashable K] [BEq V] [Hashable V]

namespace Contents
variable {inUse world : V → Bool} {c : Contents K V} {j k : K} {v : V}

/-- What is found is alive, and draining takes no life. -/
theorem isAlive_of_find (h : c.drain.find inUse k = some v) : c.isAlive inUse v = true :=
  (Option.filter_eq_some_iff.mp h).2

/-- What is found under a key is what its handle leads to, if that is alive. -/
theorem Coherent.find_drain_iff [EquivBEq K] [LawfulHashable K] (h : c.Coherent inUse) :
    c.drain.find inUse k = some v ↔ c.stored k = some v ∧ c.isAlive inUse v = true := by
  rw [find, Option.filter_eq_some_iff]
  change c.drain.stored k = some v ∧ c.isAlive inUse v = true ↔ _
  refine and_congr_left fun halive => ⟨stored_drain, fun hs => ?_⟩
  obtain ⟨handle, he, rfl⟩ := stored_eq_some.mp hs
  exact stored_eq_some.mpr ⟨handle, h.drain_keeps he halive, rfl⟩

variable [LawfulBEq V]

private theorem isAlive_of_pinned {pinCount : Nat} {evicted : List K} {request : Request K V}
    (h : (c.run inUse pinCount evicted request).pins.contains v = true) : c.isAlive inUse v = true := by
  have hpinned : c.pins.contains v = true → c.isAlive inUse v = true := by
    intro hp
    rw [isAlive, hp, Bool.or_true, Bool.true_or]
  cases request with
  | get k =>
    rw [run, lookedUp] at h
    split at h
    · exact hpinned h
    · next handle he =>
      split at h
      · next halive =>
        have hmem : v ∈ handle.referent :: c.pins.toList := by
          change (if pinCount < (c.pins.push handle.referent).size then
            (c.pins.push handle.referent).dropOldest else c.pins.push handle.referent).contains v = true at h
          rw [Pins.contains_iff] at h
          split at h
          · rw [Pins.toList_dropOldest] at h
            exact List.dropLast_subset _ h
          · exact h
        obtain rfl | hold := List.mem_cons.mp hmem
        · exact halive
        · exact hpinned (Pins.contains_iff.mpr hold)
      · exact hpinned h
  | clear =>
    simp [run, empty] at h
  | _ => exact hpinned h

variable [EquivBEq K] [LawfulHashable K]

theorem isAlive_iff : c.isAlive inUse v = true ↔
    inUse v = true ∨ c.pins.contains v = true ∨ ∃ k, c.registered.get? k = some v := by
  rw [isAlive, Bool.or_eq_true, Bool.or_eq_true, Registry.contains_iff, or_assoc]

/-- A request brings no value to life but the one it puts. -/
theorem isAlive_of_run {pinCount : Nat} {evicted : List K} {request : Request K V}
    (h : (c.run inUse pinCount evicted request).isAlive world v = true) :
    world v = true ∨ c.isAlive inUse v = true ∨ ∃ k, request = .put k v := by
  obtain hworld | hpinned | ⟨k, hk⟩ := isAlive_iff.mp h
  · exact .inl hworld
  · exact .inr (.inl (isAlive_of_pinned hpinned))
  · exact .inr ((registered_run hk).imp_left fun hold => isAlive_iff.mpr (.inr (.inr ⟨k, hold⟩)))

theorem isAlive_of_remove (h : (c.drain.remove k).isAlive inUse v = true) : c.isAlive inUse v = true := by
  have hrun : (c.run inUse 0 [] (.remove k)).isAlive inUse v = true := h
  obtain hu | hbefore | ⟨_, hput⟩ := isAlive_of_run hrun
  · exact isAlive_iff.mpr (.inl hu)
  · exact hbefore
  · cases hput

/-- A pass changes nothing for a key whose value it does not release. -/
theorem Coherent.find_collect (h : c.Coherent inUse)
    (hkept : ∀ v j, c.stored k = some v → c.registered.get? j = some v → c.isFree inUse v = false) :
    (c.collect inUse).drain.find inUse k = c.drain.find inUse k := by
  refine Option.ext fun v => ?_
  rw [h.collect.find_drain_iff, h.find_drain_iff]
  refine and_congr_right fun hs => ?_
  rw [isAlive_iff, isAlive_iff]
  refine or_congr_right (or_congr_right (exists_congr fun j => ?_))
  rw [registered_collect, Option.filter_eq_some_iff]
  refine ⟨And.left, fun hj => ⟨hj, ?_⟩⟩
  rw [hkept v j hs hj]
  rfl

/-- A pass takes no registration of a key whose stored value is alive after it. -/
theorem Coherent.registered_collect_of_isAlive (h : c.Coherent inUse) (hs : c.stored k = some v)
    (halive : (c.collect inUse).isAlive inUse v = true) :
    (c.collect inUse).registered.get? k = c.registered.get? k := by
  rw [registered_collect]
  cases hr : c.registered.get? k with
  | none => rfl
  | some w =>
    obtain ⟨handle, he, rfl⟩ := stored_eq_some.mp hs
    have hkept : c.isFree inUse w = false := by
      rw [← h.agree k handle w he hr, Bool.eq_false_iff]
      intro hfree
      cases (isAlive_collect hfree).symm.trans halive
    rw [Option.filter_some, hkept]
    rfl

end Contents

theorem isAlive_iff_owners [EquivBEq K] [LawfulHashable K] [LawfulBEq V] {t : Tier K V} {inUse : V → Bool} {v : V} :
    t.contents.isAlive inUse v = true ↔ inUse v = true ∨ 0 < t.owners v := by
  rw [owners_pos_iff, Contents.isAlive_iff]
  rfl

end ResultCache.Tier
