import ResultCache.Event

/-!
What all caches have in common, from plain storage to a whole chain of layers: the calls they
answer, each with the cache afterwards and the events on the way.
-/

namespace ResultCache

/-- What a call leaves behind: the cache afterwards, the answer, and the events in the order in
which they arose. -/
structure Outcome (σ α : Type) where
  cache : σ
  answer : α
  events : List Event := []

namespace Outcome

variable {σ τ α β : Type}

def map (o : Outcome σ α) (f : σ → τ) : Outcome τ α := { o with cache := f o.cache }

def after (o : Outcome σ α) (events : List Event) : Outcome σ α :=
  { o with events := events ++ o.events }

end Outcome

/-- A cache with keys `K` and values `V`. The type `ω` is what a call may ask about the world
around the cache: nothing for plain storage, and which values are in use for a cache that does not
own its values. -/
class Cache (σ : Type) (ω K V : outParam Type) where
  name : σ → String
  put : ω → σ → K → V → Outcome σ Unit
  get : ω → σ → K → Outcome σ (Option V)
  remove : ω → σ → K → Outcome σ (Option V)
  size : ω → σ → Outcome σ Nat
  clear : ω → σ → Outcome σ Unit

end ResultCache
