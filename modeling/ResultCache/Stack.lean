import ResultCache.Cache
import ResultCache.Recency

/-!
Layers around a cache. A recency layer keeps the number of keys below its capacity by removing the
one touched longest ago, and a logging layer counts the calls that pass through it. Both leave all
else to the cache they surround.
-/

namespace ResultCache

inductive Stack (σ K : Type) [BEq K] [Hashable K] where
  | core (cache : σ)
  | lru (capacity : Nat) (recency : Recency K) (under : Stack σ K)
  | logging (stats : Stats) (under : Stack σ K)

namespace Stack

variable {σ ω K V : Type} [BEq K] [Hashable K]

def defaultCapacity : Nat := 1024

def withLru (s : Stack σ K) (capacity : Nat) : Stack σ K := .lru capacity .empty s

def withLogging (s : Stack σ K) : Stack σ K := .logging {} s

def inner : Stack σ K → σ
  | core cache => cache
  | lru _ _ under => under.inner
  | logging _ under => under.inner

def mapInner (f : σ → σ) : Stack σ K → Stack σ K
  | core cache => .core (f cache)
  | lru capacity recency under => .lru capacity recency (under.mapInner f)
  | logging stats under => .logging stats (under.mapInner f)

def height : Stack σ K → Nat
  | core _ => 0
  | lru _ _ under => under.height + 1
  | logging _ under => under.height + 1

def unwrap? : Stack σ K → Option (Stack σ K)
  | lru _ _ under => some under
  | _ => none

/-- Gives a recency layer another capacity. Layers are counted from the inside, from one. -/
def setCapacity? (layer capacity : Nat) : Stack σ K → Option (Stack σ K)
  | core _ => none
  | lru old recency under =>
    if layer = under.height + 1 then some (.lru capacity recency under)
    else (under.setCapacity? layer capacity).map (.lru old recency)
  | logging stats under => (under.setCapacity? layer capacity).map (.logging stats)

variable [Cache σ ω K V]

def name : Stack σ K → String
  | core cache => Cache.name cache
  | lru _ _ under => under.name
  | logging _ under => under.name

/-- A removed key stays tracked by the recency layers until it is evicted. -/
def remove (world : ω) : Stack σ K → K → Outcome (Stack σ K) (Option V)
  | core cache, k => (Cache.remove world cache k).map .core
  | lru capacity recency under, k => (under.remove world k).map (.lru capacity recency)
  | logging stats under, k =>
    (under.remove world k).map (.logging { stats with removes := stats.removes + 1 })

/-- The value is stored before the key that has to make room for it is removed. -/
def put (world : ω) : Stack σ K → K → V → Outcome (Stack σ K) Unit
  | core cache, k, v => (Cache.put world cache k v).map .core
  | lru capacity recency under, k, v =>
    let ⟨under, _, events⟩ := under.put world k v
    match recency.track capacity k with
    | (none, recency) => ⟨.lru capacity recency under, (), events⟩
    | (some eldest, recency) =>
      let removed := under.remove world eldest
      ⟨.lru capacity recency removed.cache, (), events ++ .evicted capacity :: removed.events⟩
  | logging stats under, k, v =>
    (under.put world k v).map (.logging { stats with puts := stats.puts + 1 })

/-- A lookup touches a tracked key, whether or not it is found. -/
def get (world : ω) : Stack σ K → K → Outcome (Stack σ K) (Option V)
  | core cache, k => (Cache.get world cache k).map .core
  | lru capacity recency under, k =>
    (under.get world k).map (.lru capacity (recency.touch k))
  | logging stats under, k =>
    let found := under.get world k
    let stats := { stats with
      requests := stats.requests + 1
      hits := stats.hits + if found.answer.isSome then 1 else 0 }
    ⟨.logging stats found.cache, found.answer, found.events ++ [.lookedUp stats.hitRatio]⟩

def size (world : ω) : Stack σ K → Outcome (Stack σ K) Nat
  | core cache => (Cache.size world cache).map .core
  | lru capacity recency under => (under.size world).map (.lru capacity recency)
  | logging stats under => (under.size world).map (.logging stats)

/-- Recency layers forget their keys; counts go on. -/
def clear (world : ω) : Stack σ K → Outcome (Stack σ K) Unit
  | core cache => (Cache.clear world cache).map .core
  | lru capacity _ under => (under.clear world).map (.lru capacity .empty)
  | logging stats under => (under.clear world).map (.logging stats)

instance : Cache (Stack σ K) ω K V where
  name := name
  put := put
  get := get
  remove := remove
  size := size
  clear := clear

end Stack
end ResultCache
