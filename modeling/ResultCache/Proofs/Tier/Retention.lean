import ResultCache.Proofs.Tier.Backing
import ResultCache.Proofs.Tier.Faithful

/-! How long a weak tier keeps a value under a key. The entry goes with an eviction or a call that ends
it, and the registration with a pass that finds no other owner. -/
namespace ResultCache

def Request.ends {K V : Type} [BEq K] (k : K) : Request K V → Bool
  | put k' _ => k' == k
  | remove k' => k' == k
  | clear => true
  | _ => false

namespace Tier.Contents
variable {K V : Type} [BEq K] [Hashable K] [BEq V] [Hashable V]

/-- A value is stored and registered under a key, and the key is not reported. -/
structure Holds (k : K) (v : V) (c : Contents K V) : Prop where
  stored : c.stored k = some v
  registered : c.registered.get? k = some v
  unreported : c.pending.contains k = false

variable [EquivBEq K] [LawfulHashable K] {inUse : V → Bool} {c : Contents K V} {k k' : K} {v : V}

private theorem Holds.drain (h : c.Holds k v) : c.drain.Holds k v := by
  refine ⟨?_, h.registered, rfl⟩
  rw [Contents.stored, Contents.drain, Store.getElem?_eraseEach h.unreported]
  exact h.stored

/-- A put holds its value, whatever was there before, if its own key is not evicted. -/
theorem Holds.of_put (hk : (k' == k) = true) (inUse : V → Bool) (pinCount : Nat) {evicted : List K}
    (hev : evicted.contains k = false) : (c.run inUse pinCount evicted (.put k' v)).Holds k v := by
  refine ⟨?_, ?_, rfl⟩
  · change ((Store.eraseEach (c.drain.entries.insert k' ⟨k', v⟩) evicted)[k]?).map _ = some v
    rw [Store.getElem?_eraseEach hev, Std.HashMap.getElem?_insert, if_pos hk]
    rfl
  · change (c.registered.insert k' v).get? k = some v
    simp [hk]

/-- Until a request ends it or evicts its key, a value is held. -/
theorem Holds.run [EquivBEq V] [LawfulHashable V] (h : c.Holds k v) (inUse : V → Bool) (pinCount : Nat)
    {evicted : List K} (hev : evicted.contains k = false) (request : Request K V)
    (hends : request.ends k = false) : (c.run inUse pinCount evicted request).Holds k v := by
  have hd := h.drain
  cases request with
  | put k' v' =>
    change (k' == k) = false at hends
    refine ⟨?_, ?_, rfl⟩
    · change ((Store.eraseEach (c.drain.entries.insert k' ⟨k', v'⟩) evicted)[k]?).map _ = some v
      rw [Store.getElem?_eraseEach hev, Std.HashMap.getElem?_insert, hends]
      exact hd.stored
    · change (c.registered.insert k' v').get? k = some v
      simpa [hends] using h.registered
  | get k' =>
    rw [Contents.run, lookedUp]
    split
    · exact hd
    · next handle he =>
      split
      · exact ⟨hd.stored, h.registered, rfl⟩
      · next hdead =>
        -- the handle of the key itself leads to its registered value, which is alive
        have hother : (k' == k) = false := by
          rw [Bool.eq_false_iff]
          intro hk
          rw [Std.HashMap.getElem?_congr hk] at he
          obtain ⟨handle', he', rfl⟩ := stored_eq_some.mp hd.stored
          cases he.symm.trans he'
          apply hdead
          rw [isAlive, Bool.or_eq_true]
          exact .inr (Registry.contains_of_get hd.registered)
        refine ⟨?_, h.registered, rfl⟩
        change ((c.drain.entries.erase k')[k]?).map _ = some v
        rw [Std.HashMap.getElem?_erase, hother]
        exact hd.stored
  | remove k' =>
    change (k' == k) = false at hends
    refine ⟨?_, ?_, rfl⟩
    · change ((c.drain.entries.erase k')[k]?).map _ = some v
      rw [Std.HashMap.getElem?_erase, hends]
      exact hd.stored
    · change (c.registered.erase k').get? k = some v
      simpa [hends] using h.registered
  | size => exact hd
  | clear => cases hends

/-- What is held is found. -/
theorem Holds.find [EquivBEq V] [LawfulHashable V] (h : c.Holds k v) (inUse : V → Bool)
    (hk : (k' == k) = true) : c.drain.find inUse k' = some v := by
  have hd := h.drain
  rw [Contents.find, Std.HashMap.getElem?_congr hk, Option.filter_eq_some_iff]
  refine ⟨hd.stored, ?_⟩
  rw [isAlive, Bool.or_eq_true]
  exact .inr (Registry.contains_of_get hd.registered)

/-- A pass leaves a value held if the value has another owner. -/
theorem Holds.collect [LawfulBEq V] (h : c.Holds k v) (ho : c.OwnedBesides inUse k v) :
    (c.collect inUse).Holds k v := by
  refine ⟨h.stored, registered_collect_iff.mpr ⟨h.registered, ho⟩, ?_⟩
  rw [pending_collect, h.unreported, h.registered, Option.any_some, Bool.false_or]
  exact (isFree_eq_false_iff h.registered).mpr ho

end Tier.Contents
end ResultCache
