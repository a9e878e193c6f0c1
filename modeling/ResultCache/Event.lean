import ResultCache.Stats

/-! What caches report while they work, for whoever listens. -/

namespace ResultCache

inductive Level where
  | trace
  | debug
  deriving DecidableEq

inductive Event where
  /-- A key is dropped because more keys are tracked than the capacity allows. -/
  | evicted (capacity : Nat)
  /-- The entries of so many reclaimed values were dropped. -/
  | reclaimed (count : Nat)
  /-- The share of hits after a lookup. -/
  | lookedUp (hitRatio : Binary64)
  /-- A chain was put together from so many layers. -/
  | built (layers : Nat) (logging weak : Bool)
  deriving DecidableEq

namespace Event

def level : Event → Level
  | evicted _ => .trace
  | reclaimed _ => .trace
  | lookedUp _ => .debug
  | built .. => .debug

def message : Event → String
  | evicted _ => "evicting least recently used key"
  | reclaimed _ => "dropped reclaimed entries"
  | lookedUp _ => "cache hit ratio"
  | built .. => "built cache chain"

end Event
end ResultCache
