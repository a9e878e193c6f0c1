import ResultCache.Proofs.Registry
import ResultCache.Proofs.Tier.Contents

/-! What a pass of the queue leaves registered: the values in use, those pinned, and those with another
key. The keys of the others are reported. -/
namespace ResultCache.Tier.Contents
variable {K V : Type} [BEq K] [Hashable K] [EquivBEq K] [LawfulHashable K] [BEq V] [Hashable V]
variable {inUse : V → Bool} {c : Contents K V} {k : K} {v : V}

theorem registered_collect :
    (c.collect inUse).registered.get? k = (c.registered.get? k).filter fun v => !c.isFree inUse v :=
  Registry.get?_filter

theorem contains_released : (c.registered.entries.filter fun _ v => c.isFree inUse v).keys.contains k =
    (c.registered.get? k).any (c.isFree inUse) := by
  rw [Std.HashMap.contains_keys, Std.HashMap.contains_eq_isSome_getElem?, Std.HashMap.getElem?_filter,
    Option.pfilter_eq_filter, Registry.get?]
  cases c.registered.entries[k]? with
  | none => rfl
  | some v => cases hf : c.isFree inUse v <;> simp [hf]

theorem pending_collect : (c.collect inUse).pending.contains k =
    (c.pending.contains k || (c.registered.get? k).any (c.isFree inUse)) := by
  rw [collect, List.contains_append, contains_released]

/-- A value has an owner other than its registration under the key. -/
def OwnedBesides (inUse : V → Bool) (c : Contents K V) (k : K) (v : V) : Prop :=
  inUse v = true ∨ c.pins.contains v = true ∨ ∃ j, (k == j) = false ∧ c.registered.get? j = some v

variable [LawfulBEq V]

theorem isFree_eq_false_iff (h : c.registered.get? k = some v) :
    c.isFree inUse v = false ↔ c.OwnedBesides inUse k v := by
  have hcount : c.registered.count v ≠ 1 ↔ ∃ j, (k == j) = false ∧ c.registered.get? j = some v := by
    rw [Ne, Registry.count_eq_one_iff h]
    simp only [Classical.not_forall, Classical.not_not, exists_prop]
  rw [isFree, OwnedBesides, ← hcount]
  cases inUse v <;> cases c.pins.contains v <;> simp

/-- A pass leaves a registration alone just if its value has another owner. -/
theorem registered_collect_iff : (c.collect inUse).registered.get? k = some v ↔
    c.registered.get? k = some v ∧ c.OwnedBesides inUse k v := by
  rw [registered_collect, Option.filter_eq_some_iff]
  constructor
  · rintro ⟨hk, hf⟩
    exact ⟨hk, (isFree_eq_false_iff hk).mp (by simpa using hf)⟩
  · rintro ⟨hk, ho⟩
    exact ⟨hk, by simpa using (isFree_eq_false_iff hk).mpr ho⟩

/-- The owners that a value had besides a registration it keeps are still there after the pass. -/
theorem ownedBesides_collect (h : c.registered.get? k = some v) (ho : c.OwnedBesides inUse k v) :
    (c.collect inUse).OwnedBesides inUse k v := by
  rcases ho with hu | hp | ⟨j, hj, hv⟩
  · exact .inl hu
  · exact .inr (.inl hp)
  · refine .inr (.inr ⟨j, hj, registered_collect_iff.mpr ⟨hv, .inr (.inr ⟨k, ?_, h⟩)⟩⟩)
    rw [BEq.comm]
    exact hj

/-- A value that a pass releases is gone. -/
theorem isAlive_collect (hf : c.isFree inUse v = true) : (c.collect inUse).isAlive inUse v = false := by
  have hworld : (inUse v || c.pins.contains v) = false := by
    rw [isFree, Bool.and_eq_true, Bool.not_eq_true'] at hf
    exact hf.1
  have hgone : (c.collect inUse).registered.contains v = false := by
    rw [Bool.eq_false_iff]
    intro hc
    obtain ⟨k, hk⟩ := Registry.contains_iff.mp hc
    rw [registered_collect, Option.filter_eq_some_iff, hf] at hk
    cases hk.2
  rw [isAlive, hgone, Bool.or_false]
  exact hworld

/-- What a pass leaves registered, the next one leaves registered too. -/
theorem isFree_collect (h : (c.collect inUse).registered.get? k = some v) :
    (c.collect inUse).isFree inUse v = false := by
  obtain ⟨hk, ho⟩ := registered_collect_iff.mp h
  exact (isFree_eq_false_iff h).mpr (ownedBesides_collect hk ho)

omit [LawfulBEq V] in
/-- A pass that finds nothing to release reports no key and keeps the registrations. -/
theorem collect_settled (h : ∀ k v, c.registered.get? k = some v → c.isFree inUse v = false) :
    (c.registered.entries.filter fun _ v => c.isFree inUse v).keys = [] ∧
      (c.collect inUse).registered.entries.Equiv c.registered.entries := by
  have hentry : ∀ (k : K) (hk : k ∈ c.registered.entries), c.isFree inUse c.registered.entries[k] = false :=
    fun k hk => h k _ (Std.HashMap.getElem?_eq_some_getElem hk)
  refine ⟨?_, Std.HashMap.filter_equiv_self_iff.mpr fun k hk => ?_⟩
  · rw [← List.isEmpty_iff, Std.HashMap.isEmpty_keys, Std.HashMap.isEmpty_filter_iff]
    exact hentry
  · change (!c.isFree inUse c.registered.entries[k]) = true
    rw [hentry k hk]
    rfl

/-- After a pass every registered value is in use or pinned if no other value had two keys before it,
and only then. -/
theorem collect_releases_iff :
    (∀ k v, (c.collect inUse).registered.get? k = some v → inUse v = true ∨ c.pins.contains v = true) ↔
      ∀ j k v, (j == k) = false → c.registered.get? j = some v → c.registered.get? k = some v →
        inUse v = true ∨ c.pins.contains v = true := by
  constructor
  · intro h j k v hjk hj hk
    exact h j v (registered_collect_iff.mpr ⟨hj, .inr (.inr ⟨k, hjk, hk⟩)⟩)
  · intro h k v hv
    obtain ⟨hk, hu | hp | ⟨j, hkj, hj⟩⟩ := registered_collect_iff.mp hv
    · exact .inl hu
    · exact .inr hp
    · exact h k j v hkj hk hj

end ResultCache.Tier.Contents
