import ResultCache.Proofs.Request
import ResultCache.Stack

/-! What a stack of layers does to the cache inside it. Every call reaches that cache unchanged, and a
put is followed there by removals of the keys that the layers evict. -/
namespace ResultCache

/-- Removes keys one after the other. -/
def Cache.removeEach {σ ω K V : Type} [Cache σ ω K V] (world : ω) (cache : σ) (keys : List K) : σ :=
  keys.foldl (fun cache k => (Cache.remove world cache k).cache) cache

/-- What each removal keeps true, several removals keep true. -/
theorem Cache.removeEach_preserves {σ ω K V : Type} [Cache σ ω K V] {world : ω} {P : σ → Prop}
    (hP : ∀ (cache : σ) (k : K), P cache → P (Cache.remove world cache k).cache) {cache : σ}
    (h : P cache) (keys : List K) : P (Cache.removeEach world cache keys) := by
  induction keys generalizing cache with
  | nil => exact h
  | cons k keys ih => exact ih (hP cache k h)

namespace Stack
variable {σ ω K V : Type} [BEq K] [Hashable K]

/-- The keys that the layers drop to make room for a key, those of the innermost layer first. -/
def evictions (k : K) : Stack σ K → List K
  | core _ => []
  | lru capacity recency under => under.evictions k ++ (recency.track capacity k).1.toList
  | logging _ under => under.evictions k

def evictedBy (s : Stack σ K) : Request K V → List K
  | .put k _ => s.evictions k
  | _ => []

variable [Cache σ ω K V]

theorem remove_inner (world : ω) (s : Stack σ K) (k : K) :
    (s.remove world k).cache.inner = (Cache.remove world s.inner k).cache ∧
      (s.remove world k).answer = (Cache.remove world s.inner k).answer := by
  induction s with
  | core cache => exact ⟨rfl, rfl⟩
  | lru capacity recency under ih => exact ih
  | logging stats under ih => exact ih

theorem get_inner (world : ω) (s : Stack σ K) (k : K) :
    (s.get world k).cache.inner = (Cache.get world s.inner k).cache ∧
      (s.get world k).answer = (Cache.get world s.inner k).answer := by
  induction s with
  | core cache => exact ⟨rfl, rfl⟩
  | lru capacity recency under ih => exact ih
  | logging stats under ih => exact ih

theorem size_inner (world : ω) (s : Stack σ K) :
    (s.size world).cache.inner = (Cache.size world s.inner).cache ∧
      (s.size world).answer = (Cache.size world s.inner).answer := by
  induction s with
  | core cache => exact ⟨rfl, rfl⟩
  | lru capacity recency under ih => exact ih
  | logging stats under ih => exact ih

theorem clear_inner (world : ω) (s : Stack σ K) :
    (s.clear world).cache.inner = (Cache.clear world s.inner).cache := by
  induction s with
  | core cache => rfl
  | lru capacity recency under ih => exact ih
  | logging stats under ih => exact ih

theorem put_inner (world : ω) (s : Stack σ K) (k : K) (v : V) :
    (s.put world k v).cache.inner =
      Cache.removeEach world (Cache.put world s.inner k v).cache (s.evictions k) := by
  induction s with
  | core cache => rfl
  | lru capacity recency under ih =>
    rw [put, evictions]
    rcases recency.track capacity k with ⟨_ | e, recency'⟩
    · rw [Option.toList_none, List.append_nil]
      exact ih
    · have hr := (remove_inner world (under.put world k v).cache e).1
      refine hr.trans ?_
      rw [ih, Cache.removeEach, Cache.removeEach, List.foldl_append]
      rfl
  | logging stats under ih => exact ih

/-- A request reaches the inner cache, and its answer comes from there. -/
theorem run_inner (world : ω) (s : Stack σ K) (request : Request K V) :
    (request.run world s).cache.inner =
        Cache.removeEach world (request.run world s.inner).cache (s.evictedBy request) ∧
      (request.run world s).answer = (request.run world s.inner).answer := by
  cases request with
  | put k v => exact ⟨put_inner world s k v, rfl⟩
  | get k => exact (get_inner world s k).imp_right (congrArg Answer.found)
  | remove k => exact (remove_inner world s k).imp_right (congrArg Answer.found)
  | size => exact (size_inner world s).imp_right (congrArg Answer.count)
  | clear => exact ⟨clear_inner world s, rfl⟩

theorem evictions_remove (world : ω) (s : Stack σ K) (j k : K) :
    (s.remove world j).cache.evictions k = s.evictions k := by
  induction s with
  | core cache => rfl
  | lru capacity recency under ih => exact congrArg (· ++ _) ih
  | logging stats under ih => exact ih

@[simp] theorem inner_mapInner (f : σ → σ) (s : Stack σ K) : (s.mapInner f).inner = f s.inner := by
  induction s with
  | core cache => rfl
  | lru capacity recency under ih => exact ih
  | logging stats under ih => exact ih

theorem mapInner_congr {f g : σ → σ} {s : Stack σ K} (h : f s.inner = g s.inner) : s.mapInner f = s.mapInner g := by
  induction s with
  | core cache => exact congrArg core h
  | lru capacity recency under ih => exact congrArg (lru capacity recency) (ih h)
  | logging stats under ih => exact congrArg (logging stats) (ih h)

end Stack
end ResultCache
