import Std.Data.HashMap
import ResultCache.Cache

/-! Plain storage under a name. It has no limit and forgets nothing by itself. -/

namespace ResultCache

structure Store (K V : Type) [BEq K] [Hashable K] where
  name : String
  entries : Std.HashMap K V := ∅

namespace Store

variable {K V : Type} [BEq K] [Hashable K]

def contains (s : Store K V) (k : K) : Bool := s.entries.contains k

def values (s : Store K V) : List V := s.entries.toList.map Prod.snd

/-- Of two equal keys a put keeps the one given last. The first could be kept as well: entries are
found by comparison, and no call gives a stored key back. -/
instance : Cache (Store K V) Unit K V where
  name := Store.name
  put _ s k v := ⟨{ s with entries := s.entries.insert k v }, (), []⟩
  get _ s k := ⟨s, s.entries[k]?, []⟩
  remove _ s k :=
    let found := s.entries[k]?
    ⟨{ s with entries := s.entries.erase k }, found, []⟩
  size _ s := ⟨s, s.entries.size, []⟩
  clear _ s := ⟨{ s with entries := ∅ }, (), []⟩

end Store
end ResultCache
