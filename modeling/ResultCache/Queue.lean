import ResultCache.Registry

/-!
Reclaiming values that nobody uses. The queue owns every value registered with it until a pass
finds that the value has no other owner; the pass then releases the value and reports its key, once.
-/

namespace ResultCache

/-- Names a value without owning it. -/
structure Handle (K V : Type) where
  key : K
  referent : V

structure Queue (K V : Type) [BEq K] [Hashable K] [BEq V] [Hashable V] where
  /-- The values owned by the queue. -/
  registered : Registry K V := .empty
  /-- The reported keys that nobody has taken yet, the first reported in front. -/
  pending : List K := []

namespace Queue

variable {K V : Type} [BEq K] [Hashable K] [BEq V] [Hashable V]

def empty : Queue K V := {}

/-- A later registration under the same key replaces the earlier one. -/
def register (q : Queue K V) (k : K) (v : V) : Handle K V × Queue K V :=
  (⟨k, v⟩, { q with registered := q.registered.insert k v })

def unregister (q : Queue K V) (k : K) : Option V × Queue K V :=
  let found := q.registered.get? k
  (found, { q with registered := q.registered.erase k })

/-- The number of keys under which a value is registered. -/
def registrations (q : Queue K V) (v : V) : Nat := q.registered.count v

def owns (q : Queue K V) (v : V) : Bool := q.registered.contains v

/-- Whether the one owner of a registered value is that registration. `inUse` tells which values
are owned outside the queue. -/
def soleOwner (q : Queue K V) (inUse : V → Bool) (v : V) : Bool :=
  !inUse v && q.registrations v == 1

/-- One pass: releases the values without another owner and reports their keys. The order of the
keys of one pass is the one in which the map lists its entries. Nothing is specified about that
order, and no result depends on it. -/
def collect (q : Queue K V) (inUse : V → Bool) : List K × Queue K V :=
  let released := q.registered.entries.filter fun _ v => q.soleOwner inUse v
  (released.keys,
    { registered := q.registered.filter fun v => !q.soleOwner inUse v
      pending := q.pending ++ released.keys })

def poll (q : Queue K V) : Option K × Queue K V :=
  (q.pending.head?, { q with pending := q.pending.tail })

def drain (q : Queue K V) : List K × Queue K V := (q.pending, { q with pending := [] })

end Queue
end ResultCache
