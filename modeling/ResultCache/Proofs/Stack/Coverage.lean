import ResultCache.Proofs.Cache.Faithful
import ResultCache.Proofs.Stack.EachRecency

/-! Recency layers that track all keys of the cache they surround. Whatever takes keys out of that cache
and whenever it does so, a layer lets go of a key only by removing it there. -/
namespace ResultCache

/-- The keys under which a cache has something. A put adds its own key, no other call adds any, and a
removed key is gone. -/
structure Cache.Keyed {σ ω K V : Type} [BEq K] [Cache σ ω K V] (keys : σ → K → Prop) (world : ω) : Prop where
  put : ∀ {a k v k'}, keys (Cache.put world a k v).cache k' → (k == k') = true ∨ keys a k'
  get : ∀ {a k k'}, keys (Cache.get world a k).cache k' → keys a k'
  remove : ∀ {a k k'}, keys (Cache.remove world a k).cache k' → (k == k') = false ∧ keys a k'
  size : ∀ {a k'}, keys (Cache.size world a).cache k' → keys a k'
  clear : ∀ {a k'}, ¬ keys (Cache.clear world a).cache k'

namespace Cache
variable {σ ω K V : Type} [BEq K] [Cache σ ω K V] {world : ω}

/-- What may be found has a key. -/
theorem Faithful.keyed {view : σ → K → Option V} (law : Faithful view world) :
    Keyed (fun a k => ∃ v, view a k = some v) world where
  put := fun ⟨v, hv⟩ => (law.put hv).imp And.left fun h => ⟨v, h.2⟩
  get := fun ⟨v, hv⟩ => ⟨v, law.get hv⟩
  remove := fun ⟨v, hv⟩ => ⟨(law.remove hv).1, v, (law.remove hv).2⟩
  size := fun ⟨v, hv⟩ => ⟨v, law.size hv⟩
  clear := by
    rintro a k ⟨v, hv⟩
    cases law.clear.symm.trans hv

theorem Keyed.removeEach {keys : σ → K → Prop} (law : Keyed keys world) {a : σ} {removed : List K} {k : K}
    (h : keys (Cache.removeEach world a removed) k) : keys a k ∧ ∀ e ∈ removed, (e == k) = false := by
  induction removed generalizing a with
  | nil => exact ⟨h, fun e he => (List.not_mem_nil he).elim⟩
  | cons e removed ih =>
    obtain ⟨hk, hrest⟩ := ih h
    obtain ⟨he, hk⟩ := law.remove hk
    exact ⟨hk, List.forall_mem_cons.mpr ⟨he, hrest⟩⟩

/-- An index that tracks all keys of a cache still does so after a request, if the cache loses what the
index drops. -/
theorem Keyed.covered [Hashable K] [EquivBEq K] [LawfulHashable K] {keys : σ → K → Prop}
    (law : Keyed keys world) {a : σ} {capacity : Nat} {recency : Recency K} {request : Request K V}
    {removed : List K} (hcovers : ∀ k, keys a k → recency.contains k = true)
    (hdropped : ∀ e ∈ recency.dropped capacity request, e ∈ removed) {k : K}
    (h : keys (Cache.removeEach world (request.run world a).cache removed) k) :
    (recency.after capacity request).contains k = true := by
  obtain ⟨hk, hkept⟩ := law.removeEach h
  cases request with
  | put t v =>
    have hold : (t == k || recency.contains k) = true := by
      rw [Bool.or_eq_true]
      exact (law.put hk).imp id (hcovers k)
    change (recency.track capacity t).2.contains k = true
    rw [Recency.contains_track, hold, Bool.true_and, Bool.not_eq_true', Option.any_eq_false]
    exact fun e he => hkept e (hdropped e he)
  | get t =>
    change (recency.touch t).contains k = true
    simpa using hcovers k (law.get hk)
  | remove t => exact hcovers k (law.remove hk).2
  | size => exact hcovers k (law.size hk)
  | clear => exact (law.clear hk).elim

end Cache

def Layer.capacity? : Layer → Option Nat
  | lru capacity => some capacity
  | _ => none

namespace Stack
variable {σ ω K V : Type} [BEq K] [Hashable K]

def capacities : Stack σ K → List Nat
  | core _ => []
  | lru capacity _ under => capacity :: under.capacities
  | logging _ under => under.capacities

@[simp] theorem capacities_withLayers (s : Stack σ K) (layers : List Layer) :
    (s.withLayers layers).capacities = (layers.filterMap Layer.capacity?).reverse ++ s.capacities := by
  induction layers generalizing s with
  | nil => rfl
  | cons layer layers ih =>
    cases layer with
    | lru capacity =>
      have hrest := ih (s.withLru capacity)
      rw [withLayers, hrest, List.filterMap_cons, Layer.capacity?, List.reverse_cons, List.append_assoc]
      rfl
    | weak pinCount => exact ih s
    | logging => exact ih s.withLogging

@[simp] theorem capacities_mapInner (f : σ → σ) (s : Stack σ K) : (s.mapInner f).capacities = s.capacities := by
  induction s with
  | core cache => rfl
  | lru capacity recency under ih => exact congrArg (capacity :: ·) ih
  | logging stats under ih => exact ih

/-- What all layers share holds of a layer with a given capacity. -/
theorem EachRecency.of_capacity {P : Nat → Recency K → Prop} {s : Stack σ K} (h : s.EachRecency P)
    {capacity : Nat} (hc : capacity ∈ s.capacities) : ∃ recency, P capacity recency := by
  induction s with
  | core cache => cases hc
  | lru other recency under ih =>
    rcases List.mem_cons.mp hc with rfl | hc
    · exact ⟨recency, h.1⟩
    · exact ih h.2 hc
  | logging stats under ih => exact ih h hc

/-- What a layer drops in a request is evicted in it. -/
theorem EachRecency.dropped (s : Stack σ K) (request : Request K V) :
    s.EachRecency fun capacity recency =>
      ∀ e ∈ recency.dropped capacity request, e ∈ s.evictedBy request := by
  cases request with
  | put k v =>
    induction s with
    | core cache => trivial
    | lru capacity recency under ih =>
      refine ⟨fun e he => List.mem_append_right _ (Option.mem_toList.mpr he), ih.imp ?_⟩
      exact fun _ _ h e he => List.mem_append_left _ (h e he)
    | logging stats under ih => exact ih
  | _ =>
    induction s with
    | core cache => trivial
    | lru capacity recency under ih => exact ⟨nofun, ih⟩
    | logging stats under ih => exact ih

variable [Cache σ ω K V]

@[simp] theorem capacities_remove (world : ω) (s : Stack σ K) (k : K) :
    (s.remove world k).cache.capacities = s.capacities := by
  induction s with
  | core cache => rfl
  | lru capacity recency under ih => exact congrArg (capacity :: ·) ih
  | logging stats under ih => exact ih

@[simp] theorem capacities_run (world : ω) (s : Stack σ K) (request : Request K V) :
    (request.run world s).cache.capacities = s.capacities := by
  cases request with
  | put k v =>
    change (s.put world k v).cache.capacities = s.capacities
    induction s with
    | core cache => rfl
    | lru capacity recency under ih =>
      rw [put, capacities]
      rcases recency.track capacity k with ⟨_ | e, recency'⟩
      · exact congrArg (capacity :: ·) ih
      · exact congrArg (capacity :: ·) ((capacities_remove world _ e).trans ih)
    | logging stats under ih => exact ih
  | remove k => exact capacities_remove world s k
  | _ =>
    induction s with
    | core cache => rfl
    | lru capacity recency under ih => exact congrArg (capacity :: ·) ih
    | logging stats under ih => exact ih

/-- Every recency layer keeps to its capacity and tracks all keys of the inner cache. -/
def Covers (keys : σ → K → Prop) (s : Stack σ K) : Prop :=
  s.EachRecency fun capacity recency =>
    (∃ past, recency.Follows capacity past) ∧ ∀ k, keys s.inner k → recency.contains k = true

namespace Covers
variable {keys : σ → K → Prop} {s : Stack σ K} {world : ω}

/-- Fresh layers have nothing to track around an empty cache. -/
theorem withLayers (layers : List Layer) {cache : σ} (hempty : ∀ k, ¬ keys cache k) :
    ((Stack.core cache : Stack σ K).withLayers layers).Covers keys := by
  refine EachRecency.withLayers (.core _) fun capacity _ => ⟨⟨[], .empty capacity⟩, fun k hk => ?_⟩
  rw [inner_withLayers] at hk
  exact (hempty k hk).elim

/-- Changes of the inner cache that add no key are no matter of the layers. -/
theorem mapInner {keys' : σ → K → Prop} {f : σ → σ} (h : s.Covers keys)
    (hf : ∀ k, keys' (f s.inner) k → keys s.inner k) : (s.mapInner f).Covers keys' := by
  refine (EachRecency.imp h fun capacity recency hp => ⟨hp.1, fun k hk => ?_⟩).mapInner
  rw [inner_mapInner] at hk
  exact hp.2 k (hf k hk)

/-- The keys of the inner cache are not more than any layer has places for. -/
theorem length_le (h : s.Covers keys) [EquivBEq K] [LawfulHashable K] {capacity : Nat}
    (hc : capacity ∈ s.capacities) {listed : List K}
    (hd : listed.Pairwise fun a b => (a == b) = false) (hkeys : ∀ k ∈ listed, keys s.inner k) :
    listed.length ≤ capacity := by
  obtain ⟨recency, ⟨past, hf⟩, hcovers⟩ := EachRecency.of_capacity h hc
  exact hf.length_le hd fun k hk => hcovers k (hkeys k hk)

/-- A request adds a key to the inner cache only in making all layers track it, and a layer that drops a
key removes it from the inner cache. -/
theorem run [EquivBEq K] [LawfulHashable K] (law : Cache.Keyed keys world) (h : s.Covers keys)
    (request : Request K V) : (request.run world s).cache.Covers keys := by
  refine (EachRecency.and h (.dropped s request)).change world request ?_
  rintro capacity recency ⟨⟨⟨past, hf⟩, hcovers⟩, hdropped⟩
  refine ⟨hf.after request, fun k hk => ?_⟩
  rw [(run_inner world s request).1] at hk
  exact law.covered hcovers hdropped hk

end Covers
end Stack
end ResultCache
