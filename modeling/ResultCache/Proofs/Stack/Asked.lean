import ResultCache.Proofs.Recency.Membership
import ResultCache.Stack

/-! What a recency layer asks of the cache it surrounds. It passes on each request, and after a put it asks
for the removal of the key that has to make room. -/
namespace ResultCache
variable {σ ω K V : Type} [BEq K] [Hashable K]

/-- The requests that a recency layer makes of its delegate in the course of one request. -/
def Recency.asks (capacity : Nat) (recency : Recency K) (request : Request K V) : List (Request K V) :=
  request :: (recency.dropped capacity request).toList.map .remove

variable [Cache σ ω K V]

/-- The delegate of a recency layer sees what the layer asks of it and nothing else. -/
theorem Stack.run_eq_asks (world : ω) (capacity : Nat) (recency : Recency K) (under : Stack σ K)
    (request : Request K V) : (request.run world (lru capacity recency under)).cache =
      .lru capacity (recency.after capacity request)
        (Request.runAll world under (recency.asks capacity request)).cache := by
  cases request with
  | put k v =>
    change (Stack.put world (lru capacity recency under) k v).cache = .lru capacity
      (recency.track capacity k).2 (Request.runAll world under
        (.put k v :: (recency.track capacity k).1.toList.map .remove)).cache
    rw [Stack.put]
    rcases recency.track capacity k with ⟨_ | e, recency'⟩ <;> rfl
  | _ => rfl

end ResultCache
