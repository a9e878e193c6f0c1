import Std.Data.HashMap

/-!
Keys in the order in which they were last touched. The keys are the nodes of a doubly linked list
that lives in an array; an index finds the node of a key, so each operation follows a fixed number
of links. The positions of dropped nodes are used again before the array grows.
-/

namespace ResultCache

/-- A key and the positions of its neighbours, if it has any. -/
structure Recency.Node (K : Type) where
  key : K
  older : Option Nat := none
  newer : Option Nat := none

structure Recency (K : Type) [BEq K] [Hashable K] where
  nodes : Array (Recency.Node K) := #[]
  /-- The positions without a key, the one to use first in front. -/
  free : List Nat := []
  index : Std.HashMap K Nat := ∅
  eldest : Option Nat := none
  newest : Option Nat := none

namespace Recency

variable {K : Type} [BEq K] [Hashable K]

def empty : Recency K := {}

def size (r : Recency K) : Nat := r.index.size

def contains (r : Recency K) (k : K) : Bool := r.index.contains k

/-- The keys met by following the links to newer nodes, at most the given number of them. -/
def walk (nodes : Array (Node K)) : Nat → Option Nat → List K
  | 0, _ => []
  | _ + 1, none => []
  | steps + 1, some i =>
    match nodes[i]? with
    | none => []
    | some node => node.key :: walk nodes steps node.newer

/-- All keys, the one touched longest ago first. -/
def toList (r : Recency K) : List K := walk r.nodes r.nodes.size r.eldest

def setOlder (nodes : Array (Node K)) (i : Option Nat) (older : Option Nat) : Array (Node K) :=
  match i with
  | none => nodes
  | some i => nodes.modify i fun node => { node with older }

def setNewer (nodes : Array (Node K)) (i : Option Nat) (newer : Option Nat) : Array (Node K) :=
  match i with
  | none => nodes
  | some i => nodes.modify i fun node => { node with newer }

def unlink (r : Recency K) (i : Nat) : Recency K :=
  match r.nodes[i]? with
  | none => r
  | some node =>
    { r with
      nodes := (setOlder (setNewer r.nodes node.older node.newer) node.newer node.older).modify i
        fun node => { node with older := none, newer := none }
      eldest := if node.older.isNone then node.newer else r.eldest
      newest := if node.newer.isNone then node.older else r.newest }

/-- Puts a node that is not in the list at its newest end. -/
def append (r : Recency K) (i : Nat) : Recency K :=
  { r with
    nodes := setNewer (setOlder r.nodes (some i) r.newest) r.newest (some i)
    eldest := if r.newest.isNone then some i else r.eldest
    newest := some i }

def touch (r : Recency K) (k : K) : Recency K :=
  match r.index[k]? with
  | some i => (r.unlink i).append i
  | none => r

/-- Finds a position for a new key: one that was dropped, or else the end of the array. -/
def place (r : Recency K) (k : K) : Nat × Recency K :=
  match r.free with
  | i :: free => (i, { r with nodes := r.nodes.setIfInBounds i { key := k }, free })
  | [] => (r.nodes.size, { r with nodes := r.nodes.push { key := k } })

def insert (r : Recency K) (k : K) : Recency K :=
  match r.index[k]? with
  | some i => (r.unlink i).append i
  | none =>
    let (i, r) := r.place k
    { r with index := r.index.insert k i }.append i

/-- Takes out the key touched longest ago, if there is a key. -/
def popEldest (r : Recency K) : Option K × Recency K :=
  match r.eldest with
  | none => (none, r)
  | some i =>
    match r.nodes[i]? with
    | none => (none, r)
    | some node =>
      let r := r.unlink i
      (some node.key, { r with free := i :: r.free, index := r.index.erase node.key })

/-- Makes a key the newest. If that makes more keys than the capacity allows, the one touched
longest ago goes; it may be the same key. -/
def track (r : Recency K) (capacity : Nat) (k : K) : Option K × Recency K :=
  let r := r.insert k
  if capacity < r.size then r.popEldest else (none, r)

end Recency
end ResultCache
