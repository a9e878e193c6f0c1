import ResultCache.Proofs.Recency.Cells

/-! The operations of a recency index with every position checked: where the array has no node to read or
to change, they fail. On an index that some cells describe they never do, and what they give is what the
operations without checks give. -/
namespace ResultCache.Recency
variable {K : Type}

/-- Changes the node at a position, if one is given. There must be a node. -/
def change? (nodes : Array (Node K)) (f : Node K → Node K) : Option Nat → Option (Array (Node K))
  | none => some nodes
  | some i => if i < nodes.size then some (nodes.modify i f) else none

theorem change?_of_lt {nodes : Array (Node K)} {i : Nat} (h : i < nodes.size) (f : Node K → Node K) :
    change? nodes f (some i) = some (nodes.modify i f) := if_pos h

theorem change?_older {nodes : Array (Node K)} {i older : Option Nat} (h : ∀ j ∈ i, j < nodes.size) :
    change? nodes ({ · with older }) i = some (setOlder nodes i older) := by
  cases i with
  | none => rfl
  | some i => exact change?_of_lt (h i rfl) _

theorem change?_newer {nodes : Array (Node K)} {i newer : Option Nat} (h : ∀ j ∈ i, j < nodes.size) :
    change? nodes ({ · with newer }) i = some (setNewer nodes i newer) := by
  cases i with
  | none => rfl
  | some i => exact change?_of_lt (h i rfl) _

theorem Linked.lt_size {nodes : Array (Node K)} {cells : List (Nat × K)} (h : Linked nodes cells)
    {c : Nat × K} (hc : c ∈ cells) : c.1 < nodes.size := by
  obtain ⟨before, after, he⟩ := List.append_of_mem hc
  exact (Array.getElem?_eq_some_iff.mp (h before c after he)).1

private theorem Linked.neighbour_lt {nodes : Array (Node K)} {cells : List (Nat × K)}
    (h : Linked nodes cells) {o : Option (Nat × K)} (ho : ∀ c ∈ o, c ∈ cells) :
    ∀ j ∈ o.map Prod.fst, j < nodes.size := by
  intro j hj
  obtain ⟨c, hc, rfl⟩ := Option.map_eq_some_iff.mp hj
  exact h.lt_size (ho c hc)

variable [BEq K] [Hashable K]

def unlink? (r : Recency K) (i : Nat) : Option (Recency K) := do
  let node ← r.nodes[i]?
  let nodes ← change? r.nodes ({ · with newer := node.newer }) node.older
  let nodes ← change? nodes ({ · with older := node.older }) node.newer
  let nodes ← change? nodes ({ · with older := none, newer := none }) (some i)
  return { r with
    nodes
    eldest := if node.older.isNone then node.newer else r.eldest
    newest := if node.newer.isNone then node.older else r.newest }

def append? (r : Recency K) (i : Nat) : Option (Recency K) := do
  let nodes ← change? r.nodes ({ · with older := r.newest }) (some i)
  let nodes ← change? nodes ({ · with newer := some i }) r.newest
  return { r with
    nodes
    eldest := if r.newest.isNone then some i else r.eldest
    newest := some i }

def touch? (r : Recency K) (k : K) : Option (Bool × Recency K) :=
  match r.index[k]? with
  | none => some (false, r)
  | some i => do
    let r ← r.unlink? i
    let r ← r.append? i
    return (true, r)

def place? (r : Recency K) (k : K) : Option (Nat × Recency K) :=
  match r.free with
  | [] => some (r.nodes.size, { r with nodes := r.nodes.push { key := k } })
  | i :: free => do
    let nodes ← change? r.nodes (fun _ => { key := k }) (some i)
    return (i, { r with nodes, free })

def insert? (r : Recency K) (k : K) : Option (Recency K) := do
  let (tracked, r) ← r.touch? k
  if tracked then
    return r
  let (i, r) ← r.place? k
  { r with index := r.index.insert k i }.append? i

def popEldest? (r : Recency K) : Option (Option K × Recency K) :=
  match r.eldest with
  | none => some (none, r)
  | some i => do
    let r ← r.unlink? i
    let node ← r.nodes[i]?
    return (some node.key, { r with free := i :: r.free, index := r.index.erase node.key })

private theorem unlink?_eq {r : Recency K} {a b : List (Nat × K)} {c : Nat × K}
    (h : Linked r.nodes (a ++ c :: b)) : r.unlink? c.1 = some (r.unlink c.1) := by
  have hc := h a c b rfl
  have holder := h.neighbour_lt (o := a.getLast?) fun d hd => by simp [List.mem_of_getLast? hd]
  have hnewer := h.neighbour_lt (o := b.head?) fun d hd => by simp [List.mem_of_head? hd]
  have hsize : c.1 < r.nodes.size := h.lt_size (by simp)
  rw [← size_setNewer r.nodes (a.getLast?.map Prod.fst) (b.head?.map Prod.fst)] at hnewer hsize
  rw [← size_setOlder _ (b.head?.map Prod.fst) (a.getLast?.map Prod.fst)] at hsize
  simp only [unlink?, unlink, hc, Option.bind_eq_bind, Option.bind_some, change?_newer holder,
    change?_older hnewer, change?_of_lt hsize, Option.pure_def]

private theorem append?_eq {r : Recency K} {cells : List (Nat × K)} {i : Nat} (h : r.Threaded cells)
    (hi : i < r.nodes.size) : r.append? i = some (r.append i) := by
  have hnewest : ∀ j ∈ r.newest, j < r.nodes.size := by
    rw [h.newest]
    exact h.linked.neighbour_lt fun d hd => List.mem_of_getLast? hd
  have hself : ∀ j ∈ some i, j < r.nodes.size := fun j hj => Option.some.inj hj ▸ hi
  rw [← size_setOlder r.nodes (some i) r.newest] at hnewest
  simp only [append?, append, Option.bind_eq_bind, Option.bind_some, change?_older hself,
    change?_newer hnewest, Option.pure_def]

namespace Holds
variable {r : Recency K} {cells : List (Nat × K)}

private theorem moved {a b : List (Nat × K)} {c : Nat × K} (h : r.Holds (a ++ c :: b)) :
    (r.unlink? c.1).bind (append? · c.1) = some ((r.unlink c.1).append c.1) := by
  have hsize : c.1 < (r.unlink c.1).nodes.size := by
    rw [size_unlink]
    exact h.linked.lt_size (by simp)
  rw [unlink?_eq h.linked, Option.bind_some, append?_eq (h.unlink h.positions) hsize]

private theorem place? (h : r.Holds cells) (k : K) : r.place? k = some (r.place k) := by
  rw [Recency.place?, Recency.place]
  cases hfree : r.free with
  | nil => rfl
  | cons i free =>
    -- a free position is one of the slots of the array
    have hi : i < r.nodes.size :=
      List.mem_range.mp (h.slots.mem_iff.mp (List.mem_append_right _ (by simp [hfree])))
    have hset : r.nodes.modify i (fun _ => { key := k }) = r.nodes.setIfInBounds i { key := k } := by
      apply Array.ext_getElem?
      intro j
      rw [Array.getElem?_modify, Array.getElem?_setIfInBounds]
      split
      · next hij => simp [← hij, hi]
      · rfl
    simp only [change?_of_lt hi, hset, Option.bind_eq_bind, Option.bind_some, Option.pure_def]

variable [EquivBEq K] [LawfulHashable K]

/-- A touch stays within the array, and tells whether the key is there. -/
theorem touch? (h : r.Holds cells) (k : K) : r.touch? k = some (r.contains k, r.touch k) := by
  rw [contains, Std.HashMap.contains_eq_isSome_getElem?, Recency.touch?, Recency.touch]
  cases hi : r.index[k]? with
  | none => rfl
  | some i =>
    obtain ⟨c, hc, rfl, -⟩ := (h.index k i).mp hi
    obtain ⟨a, b, rfl⟩ := List.append_of_mem hc
    simp only [Option.bind_eq_bind, ← Option.bind_assoc, h.moved, Option.bind_some, Option.pure_def,
      Option.isSome_some]

theorem insert? (h : r.Holds cells) (k : K) : r.insert? k = some (r.insert k) := by
  rw [Recency.insert?, h.touch?, Recency.insert, Recency.touch, contains,
    Std.HashMap.contains_eq_isSome_getElem?]
  cases hi : r.index[k]? with
  | some i => rfl
  | none =>
    obtain ⟨i, s, hp, ht, hnode, -⟩ := h.place k
    have hlt : i < s.nodes.size := (Array.getElem?_eq_some_iff.mp hnode).1
    have ht' : { s with index := s.index.insert k i }.Threaded cells := ⟨ht.linked, ht.eldest, ht.newest⟩
    simp only [h.place?, hp, Option.isSome_none, Option.bind_eq_bind, Option.bind_some,
      Bool.false_eq_true, if_false, append?_eq ht' hlt]

omit [EquivBEq K] [LawfulHashable K] in
/-- The node of the key taken out is still there to read. -/
theorem popEldest? (h : r.Holds cells) : r.popEldest? = some r.popEldest := by
  cases cells with
  | nil => rw [Recency.popEldest?, Recency.popEldest, h.eldest]; rfl
  | cons c cells =>
    have hc := h.linked [] c cells rfl
    have hu := unlink?_eq (a := []) h.linked
    have hkey := getElem?_unlink (a := []) h.linked
    simp only [Recency.popEldest?, Recency.popEldest, h.eldest, List.head?_cons, Option.map_some, hc, hu, hkey,
      Option.bind_eq_bind, Option.bind_some, Option.pure_def, free_unlink, index_unlink]

end Holds
end ResultCache.Recency
