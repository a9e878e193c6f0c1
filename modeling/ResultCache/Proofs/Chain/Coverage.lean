import ResultCache.Proofs.Chain.EachRecency
import ResultCache.Proofs.Chain.Faithful
import ResultCache.Proofs.Stack.Coverage

/-! Chains whose recency layers track all stored keys, those beneath a weak tier like those around it. The
layer with the smallest capacity then bounds what is stored. -/
namespace ResultCache.Chain
variable {K V : Type} [BEq K] [Hashable K] [BEq V] [Hashable V]

/-- The capacities of the recency layers, the outermost first. -/
def capacities : Chain K V → List Nat
  | strong stack => stack.capacities
  | weak stack => stack.capacities ++ stack.inner.under.capacities

theorem capacities_ofLayers (name : String) (layers : List Layer) :
    (ofLayers name layers : Chain K V).capacities = (layers.filterMap Layer.capacity?).reverse := by
  rcases Layer.weak_cases layers with h | ⟨beneath, pinCount, around, rfl, h⟩
  · rw [ofLayers_strong name h, capacities, Stack.capacities_withLayers, Stack.capacities, List.append_nil]
  · rw [ofLayers_weak name pinCount around h, capacities, Stack.inner_withLayers,
      Stack.capacities_withLayers, Stack.inner, Stack.capacities_withLayers]
    simp only [Stack.capacities, List.append_nil, List.filterMap_append, List.reverse_append]
    rfl

theorem capacities_mapTier (c : Chain K V) {f : Tier K V → Tier K V} (hf : ∀ t, (f t).under = t.under) :
    (c.mapTier f).capacities = c.capacities := by
  cases c with
  | strong stack => rfl
  | weak stack => simp [mapTier, capacities, hf]

private theorem beneath_preserves {P : Stack (Store K (Handle K V)) K → Prop}
    (hP : ∀ under (request : Request K (Handle K V)), P under → P (request.run () under).cache)
    {stack : Stack (Tier K V) K} (h : P stack.inner.under) (inUse : V → Bool) (request : Request K V) :
    P (request.run inUse stack).cache.inner.under := by
  have hstep : ∀ (t : Tier K V) (r : Request K V), P t.under → P (r.run inUse t).cache.under :=
    fun t r ht => Tier.under_preserves hP ht inUse r
  rw [(Stack.run_inner inUse stack request).1]
  exact Cache.removeEach_preserves (P := fun t : Tier K V => P t.under)
    (fun t k => hstep t (.remove k)) (hstep stack.inner request h) _

theorem capacities_run (inUse : V → Bool) (c : Chain K V) (request : Request K V) :
    (request.run inUse c).cache.capacities = c.capacities := by
  cases c with
  | strong stack =>
    rw [run_strong]
    exact Stack.capacities_run () stack request
  | weak stack =>
    have hbeneath := beneath_preserves (P := fun under => under.capacities = stack.inner.under.capacities)
      (fun under request h => (Stack.capacities_run () under request).trans h) rfl inUse request
    rw [run_weak, capacities, capacities, Stack.capacities_run, hbeneath]

/-- The capacities of the recency layers around a weak tier, the outermost first. -/
def tierCapacities : Chain K V → List Nat
  | strong _ => []
  | weak stack => stack.capacities

theorem tierCapacities_ofLayers (name : String) {beneath : List Layer} (pinCount : Nat)
    (around : List Layer) (h : ∀ n, .weak n ∉ beneath) :
    (ofLayers name (beneath ++ .weak pinCount :: around) : Chain K V).tierCapacities =
      (around.filterMap Layer.capacity?).reverse := by
  rw [ofLayers_weak name pinCount around h, tierCapacities, Stack.capacities_withLayers, Stack.capacities,
    List.append_nil]

theorem tierCapacities_mapTier (c : Chain K V) (f : Tier K V → Tier K V) :
    (c.mapTier f).tierCapacities = c.tierCapacities := by
  cases c with
  | strong stack => rfl
  | weak stack => exact Stack.capacities_mapInner f stack

theorem tierCapacities_run (inUse : V → Bool) (c : Chain K V) (request : Request K V) :
    (request.run inUse c).cache.tierCapacities = c.tierCapacities := by
  cases c with
  | strong stack => rw [run_strong, tierCapacities, tierCapacities]
  | weak stack =>
    rw [run_weak]
    exact Stack.capacities_run inUse stack request

/-- The layers around a weak tier keep to their capacities and track all keys that the tier has. -/
def TierCovers (keys : Tier K V → K → Prop) : Chain K V → Prop
  | strong _ => True
  | weak stack => stack.Covers keys

namespace TierCovers
variable {keys : Tier K V → K → Prop} {c : Chain K V}

theorem ofLayers (name : String) (layers : List Layer)
    (hempty : ∀ t : Tier K V, t.contents = .empty → ∀ k, ¬ keys t k) :
    (Chain.ofLayers name layers : Chain K V).TierCovers keys := by
  rcases Layer.weak_cases layers with h | ⟨beneath, pinCount, around, rfl, h⟩
  · rw [ofLayers_strong name h]
    trivial
  · rw [ofLayers_weak name pinCount around h]
    refine Stack.Covers.withLayers around (hempty _ ?_)
    rw [Tier.contents, Stack.inner_withLayers]
    rfl

theorem mapTier {f : Tier K V → Tier K V} (h : c.TierCovers keys) (hf : ∀ t k, keys (f t) k → keys t k) :
    (c.mapTier f).TierCovers keys := by
  cases c with
  | strong stack => trivial
  | weak stack => exact Stack.Covers.mapInner h (hf stack.inner)

theorem run [EquivBEq K] [LawfulHashable K] (h : c.TierCovers keys) {inUse : V → Bool}
    (law : Cache.Keyed keys inUse) (request : Request K V) :
    (request.run inUse c).cache.TierCovers keys := by
  cases c with
  | strong stack =>
    rw [run_strong]
    trivial
  | weak stack =>
    rw [run_weak]
    exact Stack.Covers.run law h request

/-- The keys that the tier has are not more than any layer around it has places for. -/
theorem length_le [EquivBEq K] [LawfulHashable K] (h : c.TierCovers keys) {t : Tier K V}
    (ht : c.tier? = some t) {capacity : Nat} (hc : capacity ∈ c.tierCapacities) {listed : List K}
    (hd : listed.Pairwise fun a b => (a == b) = false) (hkeys : ∀ k ∈ listed, keys t k) :
    listed.length ≤ capacity := by
  cases c with
  | strong stack => cases ht
  | weak stack =>
    cases ht
    exact Stack.Covers.length_le h hc hd hkeys

end TierCovers

/-- The layers around the storage, up to a weak tier, keep to their capacities and track all stored keys. -/
def StorageCovers : Chain K V → Prop
  | strong stack => stack.Covers Store.Has
  | weak stack => stack.inner.under.Covers Store.Has

/-- All recency layers keep to their capacities and track all stored keys. -/
structure Covers (c : Chain K V) : Prop where
  storage : c.StorageCovers
  tier : c.TierCovers fun t k => ∃ v, t.contents.stored k = some v

namespace Covers
variable {c : Chain K V}

theorem ofLayers (name : String) (layers : List Layer) :
    (Chain.ofLayers name layers : Chain K V).Covers := by
  constructor
  · rcases Layer.weak_cases layers with h | ⟨beneath, pinCount, around, rfl, h⟩
    · rw [ofLayers_strong name h, StorageCovers]
      exact Stack.Covers.withLayers layers fun k => by simp [Store.Has]
    · rw [ofLayers_weak name pinCount around h, StorageCovers, Stack.inner_withLayers]
      exact Stack.Covers.withLayers beneath fun k => by simp [Store.Has]
  · refine .ofLayers name layers fun t ht k => ?_
    rw [ht]
    simp [Tier.Contents.empty, Tier.Contents.stored]

theorem mapTier {f : Tier K V → Tier K V} (h : c.Covers) (hf : ∀ t, (f t).under = t.under) :
    (c.mapTier f).Covers := by
  constructor
  · cases c with
    | strong stack => exact h.storage
    | weak stack =>
      rw [Chain.mapTier, StorageCovers, Stack.inner_mapInner, hf]
      exact h.storage
  · refine h.tier.mapTier fun t k hk => ?_
    rw [Tier.contents, hf] at hk
    exact hk

/-- No layer loses track of a stored key, and none tracks more keys than it has places for. -/
theorem each (h : c.Covers) : c.EachRecency fun capacity recency =>
    recency.size ≤ capacity ∧ ∀ k v, c.stored k = some v → recency.contains k = true := by
  have hsize : ∀ {capacity} {recency : Recency K}, (∃ past, recency.Follows capacity past) →
      recency.size ≤ capacity := by
    rintro capacity recency ⟨past, hf⟩
    rw [hf.size_eq]
    exact Recency.length_recent_le capacity past
  cases c with
  | strong stack =>
    exact Stack.EachRecency.imp h.storage fun _ _ hl => ⟨hsize hl.1, fun k v hk => hl.2 k ⟨v, hk⟩⟩
  | weak stack =>
    refine ⟨h.tier.imp fun _ _ hl => ⟨hsize hl.1, fun k v hk => hl.2 k ⟨v, hk⟩⟩, ?_⟩
    refine Stack.EachRecency.imp h.storage fun _ _ hl => ⟨hsize hl.1, fun k v hk => ?_⟩
    obtain ⟨handle, he, -⟩ := Tier.Contents.stored_eq_some.mp hk
    exact hl.2 k ⟨handle, he⟩

variable [EquivBEq K] [LawfulHashable K]

theorem run (h : c.Covers) (inUse : V → Bool) (request : Request K V) :
    (request.run inUse c).cache.Covers := by
  obtain ⟨hstorage, htier⟩ := h
  refine ⟨?_, htier.run (Tier.faithful inUse).keyed request⟩
  cases c with
  | strong stack =>
    rw [StorageCovers] at hstorage
    rw [run_strong]
    exact hstorage.run Store.faithful.keyed request
  | weak stack =>
    rw [StorageCovers] at hstorage
    rw [run_weak]
    exact beneath_preserves (P := fun under => under.Covers Store.Has)
      (fun _ r hu => hu.run Store.faithful.keyed r) hstorage inUse request

/-- Stored keys are not more than any recency layer of the chain has places for. -/
theorem length_le (h : c.Covers) {capacity : Nat} (hc : capacity ∈ c.capacities) {keys : List K}
    (hd : keys.Pairwise fun a b => (a == b) = false) (hkeys : ∀ k ∈ keys, ∃ v, c.stored k = some v) :
    keys.length ≤ capacity := by
  obtain ⟨hstorage, htier⟩ := h
  cases c with
  | strong stack =>
    rw [StorageCovers] at hstorage
    exact hstorage.length_le hc hd hkeys
  | weak stack =>
    rw [StorageCovers] at hstorage
    rw [TierCovers] at htier
    rcases List.mem_append.mp hc with haround | hbeneath
    · exact htier.length_le haround hd hkeys
    · refine hstorage.length_le hbeneath hd fun k hk => ?_
      obtain ⟨v, hv⟩ := hkeys k hk
      obtain ⟨handle, he, -⟩ := Tier.Contents.stored_eq_some.mp hv
      exact ⟨handle, he⟩

end Covers

section
variable [EquivBEq K] [LawfulHashable K]

/-- The size of a chain is the number of some of its stored keys. -/
theorem size_eq_length (inUse : V → Bool) (c : Chain K V) :
    ∃ keys : List K, (c.size inUse).answer = keys.length ∧
      (keys.Pairwise fun a b => (a == b) = false) ∧ ∀ k ∈ keys, ∃ v, c.stored k = some v := by
  cases c with
  | strong stack =>
    refine ⟨stack.inner.entries.keys, ?_, Std.HashMap.distinct_keys, fun k hk => Store.exists_of_mem_keys hk⟩
    rw [Std.HashMap.length_keys]
    exact (Stack.size_inner () stack).2
  | weak stack =>
    refine ⟨stack.inner.contents.drain.entries.keys, ?_, Std.HashMap.distinct_keys, fun k hk => ?_⟩
    · rw [Std.HashMap.length_keys]
      exact (Stack.size_inner inUse stack).2.trans (Tier.size_contents stack.inner).2
    · obtain ⟨handle, he⟩ := Store.exists_of_mem_keys hk
      have hentry := (Store.some_of_eraseEach he).2
      exact ⟨handle.referent, Tier.Contents.stored_eq_some.mpr ⟨handle, hentry, rfl⟩⟩

theorem Covers.size_le {c : Chain K V} (h : c.Covers) {capacity : Nat} (hc : capacity ∈ c.capacities)
    (inUse : V → Bool) : (c.size inUse).answer ≤ capacity := by
  obtain ⟨keys, hsize, hd, hkeys⟩ := size_eq_length inUse c
  rw [hsize]
  exact h.length_le hc hd hkeys

end
end ResultCache.Chain
