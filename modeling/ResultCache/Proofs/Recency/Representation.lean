import Mathlib.Data.List.Induction
import ResultCache.Proofs.Recency.Bounds
import ResultCache.Proofs.Recency.Order

/-! A recency index through a whole run of commands. The links visit the tracked keys in their order, either
way, every position that is not visited is free, and the array never grows beyond the most keys tracked at
once. -/
namespace ResultCache.Recency
variable {K : Type}

/-- Following a link from a position visits these cells, each a node that is there, and then ends. -/
inductive Visits (nodes : Array (Node K)) (link : Node K → Option Nat) : Option Nat → List (Nat × K) → Prop
  | nil : Visits nodes link none []
  | cons {i : Nat} {node : Node K} {cells : List (Nat × K)} (here : nodes[i]? = some node)
      (rest : Visits nodes link (link node) cells) : Visits nodes link (some i) ((i, node.key) :: cells)

private theorem visits_newer {nodes : Array (Node K)} {after : List (Nat × K)} (before : List (Nat × K))
    (h : Linked nodes (before ++ after)) : Visits nodes Node.newer (after.head?.map Prod.fst) after := by
  induction after generalizing before with
  | nil => exact .nil
  | cons c after ih => exact .cons (h before c after rfl) (ih (before ++ [c]) (by simpa using h))

private theorem visits_older {nodes : Array (Node K)} {before : List (Nat × K)} (after : List (Nat × K))
    (h : Linked nodes (before ++ after)) :
    Visits nodes Node.older (before.getLast?.map Prod.fst) before.reverse := by
  induction before using List.reverseRecOn generalizing after with
  | nil => exact .nil
  | append_singleton before c ih =>
    have hl : Linked nodes (before ++ c :: after) := by simpa using h
    rw [List.getLast?_concat, List.reverse_append]
    exact .cons (hl before c after rfl) (ih (c :: after) hl)

variable [BEq K] [Hashable K]

theorem Threaded.forward {r : Recency K} {cells : List (Nat × K)} (h : r.Threaded cells) :
    Visits r.nodes Node.newer r.eldest cells := by
  rw [h.eldest]
  exact visits_newer [] h.linked

theorem Threaded.backward {r : Recency K} {cells : List (Nat × K)} (h : r.Threaded cells) :
    Visits r.nodes Node.older r.newest cells.reverse := by
  rw [h.newest]
  exact visits_older [] (by rw [List.append_nil]; exact h.linked)

inductive Command (K : Type) where
  | insert (k : K)
  | touch (k : K)
  | popEldest
  | clear

def step (r : Recency K) : Command K → Recency K
  | .insert k => r.insert k
  | .touch k => r.touch k
  | .popEldest => r.popEldest.2
  | .clear => .empty

/-- A command with every position checked. -/
def step? (r : Recency K) : Command K → Option (Recency K)
  | .insert k => r.insert? k
  | .touch k => (r.touch? k).map Prod.snd
  | .popEldest => r.popEldest?.map Prod.snd
  | .clear => some .empty

/-- What a command does to keys listed from the eldest to the newest. -/
def Command.change (keys : List K) : Command K → List K
  | .insert k => if keys.any (· == k) then moveToEnd k keys else keys ++ [k]
  | .touch k => moveToEnd k keys
  | .popEldest => keys.tail
  | .clear => []

/-- The keys after a command, and the most there were at once since the last clear. -/
def account (past : List K × Nat) (command : Command K) : List K × Nat :=
  let keys := command.change past.1
  match command with
  | .clear => (keys, 0)
  | _ => (keys, max past.2 keys.length)

theorem size_nodes_touch (r : Recency K) (k : K) : (r.touch k).nodes.size = r.nodes.size := by
  rw [touch]
  split
  · rw [size_append, size_unlink]
  · rfl

theorem size_nodes_popEldest (r : Recency K) : r.popEldest.2.nodes.size = r.nodes.size := by
  rw [popEldest]
  split
  · rfl
  · split
    · rfl
    · exact size_unlink r _

/-- A new key takes a new position only when none is free. -/
theorem size_nodes_insert (r : Recency K) (k : K) :
    (r.insert k).nodes.size =
      r.nodes.size + if r.index[k]? = none ∧ r.free = [] then 1 else 0 := by
  rw [insert]
  cases r.index[k]? with
  | some i => simp [size_append, size_unlink]
  | none =>
    rw [place]
    cases r.free with
    | nil => simp [size_append]
    | cons i free => simp [size_append]

namespace WellFormed
variable {r : Recency K}

theorem size_add_free (h : r.WellFormed) : r.size + r.free.length = r.nodes.size := by
  obtain ⟨cells, h⟩ := h
  have hlen := h.slots.length_eq
  rwa [List.length_append, List.length_map, List.length_range, ← h.tracked] at hlen

variable [EquivBEq K] [LawfulHashable K]

/-- The array grows just as far as the tracked keys need it. -/
theorem size_nodes_insert (h : r.WellFormed) (k : K) :
    (r.insert k).nodes.size = max r.nodes.size (r.insert k).size := by
  have hsize := h.size_add_free
  have hfree : r.free = [] ↔ r.free.length = 0 := List.length_eq_zero_iff.symm
  rw [Recency.size_nodes_insert, h.size_insert, contains, Std.HashMap.contains_eq_isSome_getElem?]
  cases r.index[k]? with
  | some i =>
    simp only [reduceCtorEq, false_and, if_false, Option.isSome_some, if_true]
    omega
  | none =>
    simp only [hfree, true_and, Option.isSome_none, Bool.false_eq_true, if_false]
    split <;> omega

/-- On an index that some cells describe no command leaves the array. -/
theorem step?_eq (h : r.WellFormed) (command : Command K) : r.step? command = some (r.step command) := by
  obtain ⟨cells, h⟩ := h
  cases command with
  | insert k => exact h.insert? k
  | touch k =>
    change (r.touch? k).map Prod.snd = some (r.touch k)
    rw [h.touch?, Option.map_some]
  | popEldest =>
    change r.popEldest?.map Prod.snd = some r.popEldest.2
    rw [h.popEldest?, Option.map_some]
  | clear => rfl

/-- A command does to the keys what it does to a list of them. -/
theorem step (h : r.WellFormed) (command : Command K) :
    (r.step command).WellFormed ∧ (r.step command).toList = command.change r.toList := by
  cases command with
  | insert k =>
    obtain ⟨hw, hkeys⟩ := h.insert k
    rw [h.contains_eq] at hkeys
    exact ⟨hw, hkeys⟩
  | touch k => exact h.touch k
  | popEldest => exact h.popEldest.2
  | clear => exact ⟨.empty, rfl⟩

/-- An account that starts from the keys and the size of the array gives those after the command. -/
theorem account_eq (h : r.WellFormed) (command : Command K) :
    account (r.toList, r.nodes.size) command = ((r.step command).toList, (r.step command).nodes.size) := by
  obtain ⟨hw, hkeys⟩ := h.step command
  have hroom := h.size_add_free
  rw [h.size_eq] at hroom
  rw [hkeys]
  refine Prod.ext (by cases command <;> rfl) ?_
  cases command with
  | insert k =>
    change max r.nodes.size (Command.change r.toList (.insert k)).length = (r.insert k).nodes.size
    rw [h.size_nodes_insert, ← hkeys, ← hw.size_eq]
    rfl
  | touch k =>
    change max r.nodes.size (moveToEnd k r.toList).length = (r.touch k).nodes.size
    rw [size_nodes_touch, length_moveToEnd]
    omega
  | popEldest =>
    change max r.nodes.size r.toList.tail.length = r.popEldest.2.nodes.size
    rw [size_nodes_popEldest, List.length_tail]
    omega
  | clear => rfl

/-- A whole run stays within the array, and its account gives the keys and the size of the array in the end. -/
theorem run (h : r.WellFormed) (commands : List (Command K)) :
    commands.foldlM Recency.step? r = some (commands.foldl Recency.step r) ∧
      (commands.foldl Recency.step r).WellFormed ∧
      commands.foldl account (r.toList, r.nodes.size) =
        ((commands.foldl Recency.step r).toList, (commands.foldl Recency.step r).nodes.size) := by
  induction commands generalizing r with
  | nil => exact ⟨rfl, h, rfl⟩
  | cons command commands ih =>
    rw [List.foldlM_cons, h.step?_eq command, List.foldl_cons, List.foldl_cons, h.account_eq command]
    exact ih (h.step command).1

end WellFormed

variable [EquivBEq K] [LawfulHashable K]

/-- Whatever is done with an index, starting from the empty one, no position outside the array is read or
changed. The links to newer nodes, followed from the eldest one, visit the keys that the commands leave in
their order, and end at the newest one; the links back visit them in reverse. No key is visited twice. The
index finds the node of each key and of no other, and the positions of these nodes and the free ones are
those of the array, each once. The array has room for the most keys there were at once since the last clear
and no more. A touch tells whether the key is there, and the key taken out is the first one. -/
theorem run_represents (commands : List (Command K)) :
    ∃ r cells keys most,
      commands.foldlM Recency.step? empty = some r ∧ commands.foldl Recency.step empty = r ∧
      commands.foldl account ([], 0) = (keys, most) ∧
      cells.map Prod.snd = keys ∧ (keys.Pairwise fun a b => (a == b) = false) ∧
      Visits r.nodes Node.newer r.eldest cells ∧ r.newest = cells.getLast?.map Prod.fst ∧
      Visits r.nodes Node.older r.newest cells.reverse ∧
      (∀ k i, r.index[k]? = some i ↔ ∃ c ∈ cells, c.1 = i ∧ (c.2 == k) = true) ∧ r.size = keys.length ∧
      (cells.map Prod.fst ++ r.free).Perm (List.range r.nodes.size) ∧ r.nodes.size = most ∧
      (∀ k, (r.touch? k).map Prod.fst = some (keys.any (· == k))) ∧
      r.popEldest?.map Prod.fst = some keys.head? := by
  obtain ⟨hrun, hw, hleft⟩ := WellFormed.empty.run commands
  have ⟨cells, hc⟩ := hw
  refine ⟨_, cells, _, _, hrun, rfl, hleft, hc.toList_eq.symm, hw.distinct, hc.forward, hc.newest, hc.backward,
    hc.index, hw.size_eq, hc.slots, rfl, fun k => ?_, ?_⟩
  · rw [hc.touch?, ← hw.contains_eq]
    rfl
  · rw [hc.popEldest?, ← hw.popEldest.1]
    rfl

/-- The second of two keys is taken out after the first was touched, and a third one gets its position. -/
theorem run_represents_of_reused_position :
    ∃ (r : Recency Nat) (cells : List (Nat × Nat)),
      [Command.insert 1, .insert 2, .touch 1, .popEldest, .insert 3].foldlM Recency.step? empty = some r ∧
      Visits r.nodes Node.newer r.eldest cells ∧ Visits r.nodes Node.older r.newest cells.reverse ∧
      cells.map Prod.snd = [1, 3] ∧ r.nodes.size = 2 := by
  obtain ⟨r, cells, keys, most, hrun, -, hleft, hkeys, -, hforward, -, hbackward, -, -, -, hroom, -⟩ :=
    run_represents [Command.insert 1, .insert 2, .touch 1, .popEldest, .insert 3]
  obtain ⟨rfl, rfl⟩ : [1, 3] = keys ∧ 2 = most := Prod.mk.injEq .. ▸ hleft
  exact ⟨r, cells, hrun, hforward, hbackward, hkeys, hroom⟩

end ResultCache.Recency
