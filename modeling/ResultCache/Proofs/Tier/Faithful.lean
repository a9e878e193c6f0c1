import ResultCache.Proofs.Cache.Faithful
import ResultCache.Proofs.Tier.Contents

/-! Weak tiers find only what was put into them. The handle of a value that is gone leads to nothing, and
passes of the queue leave the handles where they are. -/
namespace ResultCache.Tier
variable {K V : Type} [BEq K] [Hashable K] [BEq V] [Hashable V]

/-- The value that the stored handle of a key leads to, alive or not. -/
def Contents.stored (c : Contents K V) (k : K) : Option V := c.entries[k]?.map Handle.referent

namespace Contents

theorem stored_eq_some {c : Contents K V} {k : K} {v : V} :
    c.stored k = some v ↔ ∃ handle, c.entries[k]? = some handle ∧ handle.referent = v :=
  Option.map_eq_some_iff

variable [EquivBEq K] [LawfulHashable K]

theorem stored_drain {c : Contents K V} {k : K} {v : V} (h : c.drain.stored k = some v) :
    c.stored k = some v := by
  obtain ⟨handle, he, hv⟩ := stored_eq_some.mp h
  exact stored_eq_some.mpr ⟨handle, (Store.some_of_eraseEach he).2, hv⟩

theorem stored_put {c : Contents K V} {k k' : K} {v v' : V} {evicted : List K}
    (h : (c.put k v evicted).stored k' = some v') :
    (k == k') = true ∧ v' = v ∨ (k == k') = false ∧ c.stored k' = some v' := by
  obtain ⟨handle, he, rfl⟩ := stored_eq_some.mp h
  rcases Store.some_of_insert (Store.some_of_eraseEach he).2 with ⟨hk, rfl⟩ | ⟨hk, hm⟩
  · exact .inl ⟨hk, rfl⟩
  · exact .inr ⟨hk, stored_eq_some.mpr ⟨handle, hm, rfl⟩⟩

theorem stored_remove {c : Contents K V} {k k' : K} {v' : V}
    (h : (c.remove k).stored k' = some v') : (k == k') = false ∧ c.stored k' = some v' := by
  obtain ⟨handle, he, hv⟩ := stored_eq_some.mp h
  obtain ⟨hk, hm⟩ := Store.some_of_erase he
  exact ⟨hk, stored_eq_some.mpr ⟨handle, hm, hv⟩⟩

theorem stored_lookedUp {inUse : V → Bool} {pinCount : Nat} {c : Contents K V} {k k' : K} {v' : V}
    (h : (c.lookedUp inUse pinCount k).stored k' = some v') : c.stored k' = some v' := by
  rw [lookedUp] at h
  split at h
  · exact h
  · split at h
    · exact h
    · obtain ⟨handle, he, hv⟩ := stored_eq_some.mp h
      exact stored_eq_some.mpr ⟨handle, (Store.some_of_erase he).2, hv⟩

theorem stored_of_find {inUse : V → Bool} {c : Contents K V} {k k' : K} {v : V}
    (h : c.find inUse k = some v) (hk : (k == k') = true) : c.stored k' = some v := by
  rw [find, Option.filter_eq_some_iff, Std.HashMap.getElem?_congr hk] at h
  exact h.1

/-- A lookup that finds nothing leaves nothing to be found. -/
theorem stored_lookedUp_of_find_none {inUse : V → Bool} {pinCount : Nat} {c : Contents K V}
    {k k' : K} (h : c.find inUse k = none) (hk : (k == k') = true) :
    (c.lookedUp inUse pinCount k).stored k' = none := by
  rw [lookedUp]
  rw [find] at h
  cases he : c.entries[k]? with
  | none =>
    rw [Std.HashMap.getElem?_congr hk] at he
    exact congrArg (Option.map Handle.referent) he
  | some handle =>
    rw [he, Option.map_some, Option.filter_some] at h
    split at h
    · cases h
    · next hdead =>
      dsimp only
      rw [if_neg hdead, stored, Std.HashMap.getElem?_erase, if_pos hk]
      rfl

end Contents

theorem faithful [EquivBEq K] [LawfulHashable K] (inUse : V → Bool) :
    Cache.Faithful (fun (t : Tier K V) k => t.contents.stored k) inUse where
  put {t k v k' v'} hv := by
    change (t.put k v).cache.contents.stored k' = some v' at hv
    rw [put_contents] at hv
    exact (Contents.stored_put hv).imp_right fun ⟨hk, hs⟩ => ⟨hk, Contents.stored_drain hs⟩
  get {t k k' v'} hv := by
    change (t.get inUse k).cache.contents.stored k' = some v' at hv
    rw [(get_contents inUse t k).1] at hv
    exact Contents.stored_drain (Contents.stored_lookedUp hv)
  get_none {t k k'} ha hk := by
    change (t.get inUse k).cache.contents.stored k' = none
    rw [(get_contents inUse t k).1]
    exact Contents.stored_lookedUp_of_find_none ((get_contents inUse t k).2.symm.trans ha) hk
  get_some {t k k' v} ha hk :=
    Contents.stored_drain (Contents.stored_of_find ((get_contents inUse t k).2.symm.trans ha) hk)
  remove {t k k' v'} hv := by
    change (t.remove inUse k).cache.contents.stored k' = some v' at hv
    rw [(remove_contents inUse t k).1] at hv
    exact (Contents.stored_remove hv).imp_right Contents.stored_drain
  remove_some {t k k' v} ha hk :=
    Contents.stored_drain (Contents.stored_of_find ((remove_contents inUse t k).2.symm.trans ha) hk)
  size {t k' v'} hv := by
    change t.size.cache.contents.stored k' = some v' at hv
    rw [(size_contents t).1] at hv
    exact Contents.stored_drain hv
  clear {t k'} := by
    change t.clear.cache.contents.stored k' = none
    rw [clear_contents]
    exact congrArg (Option.map Handle.referent) Std.HashMap.getElem?_empty

theorem stored_collect (inUse : V → Bool) (t : Tier K V) (k : K) :
    (t.collect inUse).2.contents.stored k = t.contents.stored k := rfl

end ResultCache.Tier
