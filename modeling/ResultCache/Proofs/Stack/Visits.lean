import ResultCache.Proofs.Stack.Asked
import ResultCache.Proofs.Stack.Inner

/-! What reaches the logging layers of a stack, and what they count. Each layer passes on what it is asked, and
a recency layer around a logging one asks for removals besides. -/
namespace ResultCache

/-- A call that a logging layer received. Of the answer to a lookup it is told whether something was found. -/
inductive Visit (K : Type) where
  | put (key : K)
  | get (key : K) (hit : Bool)
  | remove (key : K)
  | size
  | clear

namespace Visit
variable {K V : Type}

def of : Request K V → Answer V → Visit K
  | .put k _, _ => .put k
  | .get k, .found value => .get k value.isSome
  | .get k, _ => .get k false
  | .remove k, _ => .remove k
  | .size, _ => .size
  | .clear, _ => .clear

def isGet : Visit K → Bool
  | get _ _ => true
  | _ => false

def isHit : Visit K → Bool
  | get _ hit => hit
  | _ => false

def isPut : Visit K → Bool
  | put _ => true
  | _ => false

def isRemove : Visit K → Bool
  | remove _ => true
  | _ => false

theorem countP_isHit_le (visits : List (Visit K)) : visits.countP isHit ≤ visits.countP isGet := by
  refine List.countP_mono_left fun visit _ h => ?_
  cases visit with
  | get key hit => rfl
  | _ => cases h

end Visit

def Stats.plus {K : Type} (stats : Stats) (visits : List (Visit K)) : Stats where
  requests := stats.requests + visits.countP Visit.isGet
  hits := stats.hits + visits.countP Visit.isHit
  puts := stats.puts + visits.countP Visit.isPut
  removes := stats.removes + visits.countP Visit.isRemove

theorem Stats.plus_fresh {K : Type} (visits : List (Visit K)) : ({} : Stats).plus visits =
    { requests := visits.countP Visit.isGet
      hits := visits.countP Visit.isHit
      puts := visits.countP Visit.isPut
      removes := visits.countP Visit.isRemove } := by
  simp only [plus, Nat.zero_add]

theorem Stats.plus_append {K : Type} (stats : Stats) (visits more : List (Visit K)) :
    stats.plus (visits ++ more) = (stats.plus visits).plus more := by
  simp only [plus, List.countP_append, Nat.add_assoc]

namespace Request
variable {σ ω K V : Type} [Cache σ ω K V] (world : ω)

theorem runAll_append (cache : σ) (requests more : List (Request K V)) :
    (runAll world cache (requests ++ more)).cache =
      (runAll world (runAll world cache requests).cache more).cache := by
  induction requests generalizing cache with
  | nil => rfl
  | cons request requests ih => exact ih (request.run world cache).cache

/-- A cache that passes each request on to another passes them all on. -/
theorem runAll_through {τ ω' : Type} [Cache τ ω' K V] {world : ω} {world' : ω'} {f : σ → τ}
    (h : ∀ cache (request : Request K V), (request.run world' (f cache)).cache = f (request.run world cache).cache)
    (cache : σ) (requests : List (Request K V)) :
    (runAll world' (f cache) requests).cache = f (runAll world cache requests).cache := by
  induction requests generalizing cache with
  | nil => rfl
  | cons request requests ih =>
    change (runAll world' (request.run world' (f cache)).cache requests).cache = _
    rw [h]
    exact ih (request.run world cache).cache

end Request

variable {σ ω K V : Type} [BEq K] [Hashable K]

def Recency.asksAll (capacity : Nat) (recency : Recency K) : List (Request K V) → List (Request K V)
  | [] => []
  | request :: requests =>
    recency.asks capacity request ++ (recency.after capacity request).asksAll capacity requests

namespace Stack

/-- The counts of the logging layers, those of the outermost first. -/
def stats : Stack σ K → List Stats
  | core _ => []
  | lru _ _ under => under.stats
  | logging stats under => stats :: under.stats

/-- What the cache inside is asked in the course of some requests. -/
def reaching : Stack σ K → List (Request K V) → List (Request K V)
  | core _, requests => requests
  | lru capacity recency under, requests => under.reaching (recency.asksAll capacity requests)
  | logging _ under, requests => under.reaching requests

variable [Cache σ ω K V]

/-- The calls that each logging layer receives in the course of some requests, the outermost layer first. -/
def visits (world : ω) : Stack σ K → List (Request K V) → List (List (Visit K))
  | core _, _ => []
  | lru capacity recency under, requests => under.visits world (recency.asksAll capacity requests)
  | logging _ under, requests =>
    List.zipWith Visit.of requests (Request.runAll world under requests).answer ::
      under.visits world requests

variable (world : ω)

private theorem runAll_core (cache : σ) (requests : List (Request K V)) :
    (Request.runAll world (core cache : Stack σ K) requests).cache =
      .core (Request.runAll world cache requests).cache := by
  refine Request.runAll_through (fun cache request => ?_) cache requests
  cases request <;> rfl

private theorem runAll_eq_asks (capacity : Nat) (recency : Recency K) (under : Stack σ K)
    (requests : List (Request K V)) : ∃ recency',
      (Request.runAll world (lru capacity recency under) requests).cache =
        .lru capacity recency' (Request.runAll world under (recency.asksAll capacity requests)).cache := by
  induction requests generalizing recency under with
  | nil => exact ⟨recency, rfl⟩
  | cons request requests ih =>
    change ∃ _, (Request.runAll world (request.run world (lru capacity recency under)).cache requests).cache = _
    rw [run_eq_asks, Recency.asksAll, Request.runAll_append]
    exact ih _ _

private theorem run_logging (stats : Stats) (under : Stack σ K) (request : Request K V) :
    (request.run world (logging stats under)).cache =
      .logging (stats.plus [Visit.of request (request.run world under).answer])
        (request.run world under).cache := by
  cases request with
  | get k =>
    change Stack.logging { stats with
      requests := stats.requests + 1
      hits := stats.hits + if (under.get world k).answer.isSome then 1 else 0 } _ =
        .logging (stats.plus [.get k (under.get world k).answer.isSome]) _
    cases (under.get world k).answer <;> rfl
  | _ => rfl

private theorem runAll_logging (stats : Stats) (under : Stack σ K) (requests : List (Request K V)) :
    (Request.runAll world (logging stats under) requests).cache =
      .logging (stats.plus (List.zipWith Visit.of requests (Request.runAll world under requests).answer))
        (Request.runAll world under requests).cache := by
  induction requests generalizing stats under with
  | nil => rfl
  | cons request requests ih =>
    change (Request.runAll world (request.run world (logging stats under)).cache requests).cache = _
    rw [run_logging, ih, ← Stats.plus_append]
    rfl

/-- In the course of some requests every logging layer counts the calls that it receives. -/
theorem stats_runAll (s : Stack σ K) (requests : List (Request K V)) :
    (Request.runAll world s requests).cache.stats =
      List.zipWith Stats.plus s.stats (s.visits world requests) := by
  induction s generalizing requests with
  | core cache => rw [runAll_core]; rfl
  | lru capacity recency under ih =>
    obtain ⟨recency', hrun⟩ := runAll_eq_asks world capacity recency under requests
    rw [hrun]
    exact ih _
  | logging stats under ih =>
    rw [runAll_logging]
    exact congrArg (_ :: ·) (ih requests)

/-- The cache inside is asked what reaches it, and nothing else. -/
theorem inner_runAll (s : Stack σ K) (requests : List (Request K V)) :
    (Request.runAll world s requests).cache.inner =
      (Request.runAll world s.inner (s.reaching requests)).cache := by
  induction s generalizing requests with
  | core cache => rw [runAll_core]; rfl
  | lru capacity recency under ih =>
    obtain ⟨recency', hrun⟩ := runAll_eq_asks world capacity recency under requests
    rw [hrun]
    exact ih _
  | logging stats under ih =>
    rw [runAll_logging]
    exact ih requests

theorem length_visits (s : Stack σ K) (requests : List (Request K V)) :
    (s.visits world requests).length = s.stats.length := by
  induction s generalizing requests with
  | core cache => rfl
  | lru capacity recency under ih => exact ih _
  | logging stats under ih => exact congrArg (· + 1) (ih requests)

end Stack
end ResultCache
