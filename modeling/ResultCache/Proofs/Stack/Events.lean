import ResultCache.Proofs.Stack.Inner

/-! What the layers of a stack report. A recency layer adds what it evicts and a logging layer its ratios
to the events of the cache inside. -/
namespace ResultCache.Stack
variable {σ ω K V : Type} [BEq K] [Hashable K] [Cache σ ω K V]

def makingRoom (world : ω) (capacity : Nat) (under : Stack σ K) : Option K → List Event
  | none => []
  | some eldest => .evicted capacity :: (under.remove world eldest).events

def victim? (capacity : Nat) (recency : Recency K) : Request K V → Option K
  | .put k _ => (recency.track capacity k).1
  | _ => none

theorem events_core (world : ω) (cache : σ) (request : Request K V) :
    (request.run world (core cache : Stack σ K)).events = (request.run world cache).events := by
  cases request <;> rfl

theorem events_lru (world : ω) (capacity : Nat) (recency : Recency K) (under : Stack σ K)
    (request : Request K V) :
    (request.run world (lru capacity recency under)).events = (request.run world under).events ++
      makingRoom world capacity (request.run world under).cache (victim? capacity recency request) := by
  cases request with
  | put k v =>
    change (Stack.put world (lru capacity recency under) k v).events =
      (under.put world k v).events ++ makingRoom world capacity (under.put world k v).cache _
    rw [Stack.put, victim?]
    rcases recency.track capacity k with ⟨_ | eldest, recency'⟩
    · exact (List.append_nil _).symm
    · rfl
  | _ => exact (List.append_nil _).symm

theorem events_logging (world : ω) (stats : Stats) (under : Stack σ K) (request : Request K V) :
    ∃ ratios : List Binary64, (request.run world (logging stats under)).events =
      (request.run world under).events ++ ratios.map Event.lookedUp := by
  cases request with
  | get k => exact ⟨[_], rfl⟩
  | _ => exact ⟨[], (List.append_nil _).symm⟩

end ResultCache.Stack
