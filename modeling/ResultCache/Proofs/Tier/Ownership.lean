import ResultCache.Proofs.Registry
import ResultCache.Proofs.Stack.Coverage
import ResultCache.Proofs.Tier.Registration

/-! How many values a weak tier owns. Its pins are never more than it has places for, and each other value
that it owns is registered under a key of its own. -/
namespace ResultCache
variable {K V : Type} [BEq K] [Hashable K] [BEq V] [Hashable V]

@[simp] theorem Pins.size_dropOldest (p : Pins V) : p.dropOldest.size = p.size - 1 := by
  rw [← p.dropOldest.length_toList, toList_dropOldest, List.length_dropLast, p.length_toList]

theorem Pins.contains_iff [LawfulBEq V] {p : Pins V} {v : V} : p.contains v = true ↔ v ∈ p.toList := by
  rw [contains, Bag.contains_iff, ← List.count_pos_iff, ← p.count_eq]
  rfl

/-- Different values are not more than the pins and those among them that are not pinned. -/
theorem Pins.length_le [LawfulBEq V] {p : Pins V} {values : List V} (hd : values.Nodup) :
    values.length ≤ (values.filter fun v => !p.contains v).length + p.size := by
  have hpinned : (values.filter p.contains).length ≤ p.toList.length := by
    apply length_le_of_contains
    · exact (hd.filter _).imp fun hne => beq_eq_false_iff_ne.mpr hne
    · intro v hv
      exact List.contains_iff_mem.mpr (contains_iff.mp (List.mem_filter.mp hv).2)
  have hsplit := List.length_eq_length_filter_add (l := values) p.contains
  rw [p.length_toList] at hpinned
  omega

namespace Tier

theorem Contents.registered_lookedUp (inUse : V → Bool) (pinCount : Nat) (c : Contents K V) (k : K) :
    (c.lookedUp inUse pinCount k).registered = c.registered := by
  rw [lookedUp]
  split
  · rfl
  · split <;> rfl

theorem Contents.size_pins_run {inUse : V → Bool} {pinCount : Nat} {evicted : List K} {c : Contents K V}
    (h : c.pins.size ≤ pinCount) (request : Request K V) :
    (c.run inUse pinCount evicted request).pins.size ≤ pinCount := by
  cases request with
  | get k =>
    rw [run, lookedUp]
    split
    · exact h
    · next handle he =>
      split
      · have hpush : (c.pins.push handle.referent).size = c.pins.size + 1 := rfl
        change (if pinCount < (c.pins.push handle.referent).size then
          (c.pins.push handle.referent).dropOldest else c.pins.push handle.referent).size ≤ pinCount
        split
        · rw [Pins.size_dropOldest, hpush]
          exact h
        · omega
      · exact h
  | clear => exact Nat.zero_le _
  | _ => exact h

theorem pinCount_run (inUse : V → Bool) (t : Tier K V) (request : Request K V) :
    (request.run inUse t).cache.pinCount = t.pinCount := by
  cases request with
  | get k =>
    change (t.get inUse k).cache.pinCount = t.pinCount
    rw [Tier.get]
    dsimp only
    split
    · rfl
    · split <;> rfl
  | _ => rfl

/-- The tier has a number of pins to keep to, and keeps to it. -/
structure Pinning (pinCount : Nat) (t : Tier K V) : Prop where
  pinCount_eq : t.pinCount = pinCount
  size_le : t.pins.size ≤ pinCount

theorem Pinning.run {pinCount : Nat} {t : Tier K V} (h : t.Pinning pinCount) (inUse : V → Bool)
    (request : Request K V) : (request.run inUse t).cache.Pinning pinCount := by
  refine ⟨(pinCount_run inUse t request).trans h.pinCount_eq, ?_⟩
  change (request.run inUse t).cache.contents.pins.size ≤ pinCount
  rw [run_contents, h.pinCount_eq]
  exact Contents.size_pins_run h.size_le request

/-- If no more than so many keys lead to values, different values that are pinned or have a key are not
more than these keys and the pins. -/
theorem Pinning.length_le [LawfulBEq V] {pinCount capacity : Nat} {t : Tier K V} (h : t.Pinning pinCount)
    {view : K → Option V} (hview : ∀ {k k'}, (k == k') = true → view k = view k')
    (hkeys : ∀ {keys : List K}, (keys.Pairwise fun a b => (a == b) = false) →
      (∀ k ∈ keys, ∃ v, view k = some v) → keys.length ≤ capacity)
    {values : List V} (hd : values.Nodup)
    (hvalues : ∀ v ∈ values, t.pins.contains v = true ∨ ∃ k, view k = some v) :
    values.length ≤ capacity + pinCount := by
  have hothers : ∀ v ∈ values.filter fun v => !t.pins.contains v, ∃ k, view k = some v := by
    intro v hv
    obtain ⟨hm, hunpinned⟩ := List.mem_filter.mp hv
    exact (hvalues v hm).resolve_left (by simpa using hunpinned)
  obtain ⟨keys, hlength, hapart, hfound⟩ := exists_distinct_keys hview (hd.filter _) hothers
  calc values.length
    _ ≤ keys.length + t.pins.size := by
      rw [hlength]
      exact Pins.length_le hd
    _ ≤ capacity + pinCount := by
      apply Nat.add_le_add ?_ h.size_le
      exact hkeys hapart fun k hk => (hfound k hk).imp fun _ hv => hv.2

variable [EquivBEq K] [LawfulHashable K]

/-- A put registers its key, no other call registers any, and a removed key is unregistered. -/
theorem keyed_registered (inUse : V → Bool) :
    Cache.Keyed (fun (t : Tier K V) k => ∃ v, t.contents.registered.get? k = some v) inUse where
  put {t k v k'} := by
    rintro ⟨w, hw⟩
    change (t.put k v).cache.contents.registered.get? k' = some w at hw
    rw [put_contents, Contents.put, Registry.get?_insert] at hw
    split at hw
    · next hk => exact .inl hk
    · exact .inr ⟨w, hw⟩
  get {t k k'} := by
    rintro ⟨w, hw⟩
    change (t.get inUse k).cache.contents.registered.get? k' = some w at hw
    rw [(get_contents inUse t k).1, Contents.registered_lookedUp] at hw
    exact ⟨w, hw⟩
  remove {t k k'} := by
    rintro ⟨w, hw⟩
    change (t.remove inUse k).cache.contents.registered.get? k' = some w at hw
    rw [(remove_contents inUse t k).1, Contents.remove, Registry.get?_erase] at hw
    split at hw
    · cases hw
    · next hk => exact ⟨Bool.eq_false_iff.mpr hk, w, hw⟩
  size {t k'} := by
    rintro ⟨w, hw⟩
    change t.size.cache.contents.registered.get? k' = some w at hw
    rw [(size_contents t).1] at hw
    exact ⟨w, hw⟩
  clear {t k'} := by
    rintro ⟨w, hw⟩
    change t.clear.cache.contents.registered.get? k' = some w at hw
    simp [clear_contents, Contents.empty] at hw

theorem owners_pos_iff [LawfulBEq V] {t : Tier K V} {v : V} :
    0 < t.owners v ↔ t.pins.contains v = true ∨ ∃ k, t.contents.registered.get? k = some v := by
  have hpins : t.pins.contains v = true ↔ 0 < t.pins.count v := t.pins.bag.contains_iff v
  have hqueue : t.queue.registered.contains v = true ↔ 0 < t.queue.registrations v :=
    t.queue.registered.bag.contains_iff v
  rw [← Registry.contains_iff, hpins, contents, hqueue, owners]
  omega

end Tier
end ResultCache
