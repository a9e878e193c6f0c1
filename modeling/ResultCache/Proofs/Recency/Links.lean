import ResultCache.Recency

/-! The nodes of a recency index as a list of cells, each a position and the key there. Unlinking a
node takes its cell out of the list, and appending one puts a cell at the end. -/
namespace ResultCache.Recency
variable {K : Type}

/-- Every listed node holds its key and points to its neighbours in the list. -/
def Linked (nodes : Array (Node K)) (cells : List (Nat × K)) : Prop :=
  ∀ before c after, cells = before ++ c :: after →
    nodes[c.1]? = some ⟨c.2, before.getLast?.map Prod.fst, after.head?.map Prod.fst⟩

theorem getElem?_setOlder (nodes : Array (Node K)) (i older : Option Nat) (j : Nat) :
    (setOlder nodes i older)[j]? =
      if i = some j then nodes[j]?.map ({ · with older }) else nodes[j]? := by
  cases i with
  | none => simp only [setOlder, reduceCtorEq, if_false]
  | some i => simp only [setOlder, Array.getElem?_modify, Option.some.injEq]

theorem getElem?_setNewer (nodes : Array (Node K)) (i newer : Option Nat) (j : Nat) :
    (setNewer nodes i newer)[j]? =
      if i = some j then nodes[j]?.map ({ · with newer }) else nodes[j]? := by
  cases i with
  | none => simp only [setNewer, reduceCtorEq, if_false]
  | some i => simp only [setNewer, Array.getElem?_modify, Option.some.injEq]

theorem size_setOlder (nodes : Array (Node K)) (i older : Option Nat) :
    (setOlder nodes i older).size = nodes.size := by
  cases i <;> simp only [setOlder, Array.size_modify]

theorem size_setNewer (nodes : Array (Node K)) (i newer : Option Nat) :
    (setNewer nodes i newer).size = nodes.size := by
  cases i <;> simp only [setNewer, Array.size_modify]

/-- The links of listed nodes are all that matters. -/
theorem Linked.frame {nodes nodes' : Array (Node K)} {cells : List (Nat × K)}
    (h : Linked nodes cells) (same : ∀ c ∈ cells, nodes'[c.1]? = nodes[c.1]?) :
    Linked nodes' cells := by
  intro before c after he
  rw [same c (by rw [he]; simp), h before c after he]

private def joined (nodes : Array (Node K)) (i : Nat) (older newer : Option Nat) : Array (Node K) :=
  (setOlder (setNewer nodes older newer) newer older).modify i
    fun node => { node with older := none, newer := none }

private theorem getElem?_joined (nodes : Array (Node K)) (i : Nat) (older newer : Option Nat) (j : Nat) :
    (joined nodes i older newer)[j]? = (nodes[j]?).map fun node =>
      if i = j then { node with older := none, newer := none } else
        { node with
          older := if newer = some j then older else node.older
          newer := if older = some j then newer else node.newer } := by
  rw [joined, Array.getElem?_modify, getElem?_setOlder, getElem?_setNewer]
  cases nodes[j]? <;> split <;> split <;> split <;> rfl

private theorem split_append {α : Type} {a b before after : List α} {d : α}
    (he : a ++ b = before ++ d :: after) :
    (∃ m, a = before ++ d :: m ∧ after = m ++ b) ∨ ∃ m, before = a ++ m ∧ b = m ++ d :: after := by
  rcases List.append_eq_append_iff.mp he with h | ⟨m, ha, hm⟩
  · exact .inr h
  · cases m with
    | nil => exact .inr ⟨[], by simpa using ha.symm, hm.symm⟩
    | cons x m =>
      obtain ⟨rfl, rfl⟩ := List.cons.inj hm
      exact .inl ⟨m, ha, rfl⟩

private theorem map_fst_ne {o : Option (Nat × K)} {d : Nat × K} (h : ∀ x ∈ o, x.1 ≠ d.1) :
    o.map Prod.fst ≠ some d.1 := by
  intro hx
  obtain ⟨x, hx, hd⟩ := Option.map_eq_some_iff.mp hx
  exact h x hx hd

private theorem getLast_ne {before m : List (Nat × K)} {d x : Nat × K}
    (h : ∀ y ∈ x :: m, d.1 ≠ y.1) : (before ++ d :: x :: m).getLast?.map Prod.fst ≠ some d.1 := by
  have hlast : (before ++ d :: x :: m).getLast? = (x :: m).getLast? := by
    simp [List.getLast?_cons]
  rw [hlast]
  exact map_fst_ne fun y hy => (h y (List.mem_of_getLast? hy)).symm

private theorem Linked.joined {nodes : Array (Node K)} {a b : List (Nat × K)} {c : Nat × K}
    (h : Linked nodes (a ++ c :: b)) (hn : (a ++ c :: b).Pairwise fun x y => x.1 ≠ y.1) :
    Linked (Recency.joined nodes c.1 (a.getLast?.map Prod.fst) (b.head?.map Prod.fst)) (a ++ b) := by
  obtain ⟨ha, hcb, hab⟩ := List.pairwise_append.mp hn
  obtain ⟨hc, hb⟩ := List.pairwise_cons.mp hcb
  intro before d after he
  rw [getElem?_joined]
  rcases split_append he with ⟨m, rfl, rfl⟩ | ⟨m, rfl, rfl⟩
  · have hd : d ∈ before ++ d :: m := by simp
    have hcd : c.1 ≠ d.1 := (hab d hd c List.mem_cons_self).symm
    have hf : b.head?.map Prod.fst ≠ some d.1 :=
      map_fst_ne fun x hx => (hab d hd x (List.mem_cons_of_mem _ (List.mem_of_head? hx))).symm
    rw [h before d (m ++ c :: b) (by simp)]
    cases m with
    | nil => simp [hcd, hf]
    | cons x m =>
      have hdm := (List.pairwise_cons.mp (List.pairwise_append.mp ha).2.1).1
      have hl : (before ++ d :: x :: m).getLast?.map Prod.fst ≠ some d.1 := getLast_ne hdm
      simp only [Option.map_some, if_neg hcd, if_neg hf, if_neg hl, List.cons_append, List.head?_cons]
  · have hd : d ∈ m ++ d :: after := by simp
    have hcd : c.1 ≠ d.1 := hc d hd
    have hl : a.getLast?.map Prod.fst ≠ some d.1 :=
      map_fst_ne fun x hx => hab x (List.mem_of_getLast? hx) d (List.mem_cons_of_mem _ hd)
    rw [h (a ++ c :: m) d after (by simp)]
    cases m with
    | nil => simp [hcd, hl]
    | cons x m =>
      have hf : ((x :: m) ++ d :: after).head?.map Prod.fst ≠ some d.1 :=
        fun hx => (List.pairwise_cons.mp hb).1 d (by simp) (Option.some.inj hx)
      simp only [Option.map_some, if_neg hcd, if_neg hf, if_neg hl]
      simp

private theorem Linked.appended {nodes : Array (Node K)} {cells : List (Nat × K)} {i : Nat} {k : K}
    {older : Option Nat} (h : Linked nodes cells) (hn : cells.Pairwise fun x y => x.1 ≠ y.1)
    (hi : nodes[i]? = some ⟨k, older, none⟩) (fresh : ∀ c ∈ cells, c.1 ≠ i) :
    Linked (setNewer (setOlder nodes (some i) (cells.getLast?.map Prod.fst))
      (cells.getLast?.map Prod.fst) (some i)) (cells ++ [(i, k)]) := by
  have hlast : cells.getLast?.map Prod.fst ≠ some i :=
    map_fst_ne (d := (i, k)) fun x hx => fresh x (List.mem_of_getLast? hx)
  intro before c after he
  rw [getElem?_setNewer, getElem?_setOlder]
  rcases split_append he with ⟨m, rfl, rfl⟩ | ⟨m, rfl, hm⟩
  · have hci : some i ≠ some c.1 := fun hc => fresh c (by simp) (Option.some.inj hc).symm
    rw [if_neg hci, h before c m rfl]
    cases m with
    | nil => simp
    | cons x m =>
      have hcm := (List.pairwise_cons.mp (List.pairwise_append.mp hn).2.1).1
      rw [if_neg (getLast_ne hcm)]
      rfl
  · cases m with
    | nil =>
      obtain ⟨rfl, rfl⟩ := List.cons.inj hm
      rw [if_pos rfl, hi, List.append_nil, if_neg hlast]
      rfl
    | cons x m => simp at hm

variable [BEq K] [Hashable K]

/-- The nodes from the eldest to the newest one are those listed. -/
structure Threaded (r : Recency K) (cells : List (Nat × K)) : Prop where
  linked : Linked r.nodes cells
  eldest : r.eldest = cells.head?.map Prod.fst
  newest : r.newest = cells.getLast?.map Prod.fst

private theorem unlink_eq {r : Recency K} {a b : List (Nat × K)} {c : Nat × K}
    (h : Linked r.nodes (a ++ c :: b)) :
    r.unlink c.1 =
      { r with
        nodes := joined r.nodes c.1 (a.getLast?.map Prod.fst) (b.head?.map Prod.fst)
        eldest := if (a.getLast?.map Prod.fst).isNone then b.head?.map Prod.fst else r.eldest
        newest := if (b.head?.map Prod.fst).isNone then a.getLast?.map Prod.fst else r.newest } := by
  rw [unlink, h a c b rfl]
  rfl

theorem size_unlink (r : Recency K) (i : Nat) : (r.unlink i).nodes.size = r.nodes.size := by
  rw [unlink]
  split
  · rfl
  · simp only [Array.size_modify, size_setOlder, size_setNewer]

theorem free_unlink (r : Recency K) (i : Nat) : (r.unlink i).free = r.free := by
  rw [unlink]; split <;> rfl

@[simp] theorem index_unlink (r : Recency K) (i : Nat) : (r.unlink i).index = r.index := by
  rw [unlink]; split <;> rfl

theorem size_append (r : Recency K) (i : Nat) : (r.append i).nodes.size = r.nodes.size := by
  simp only [append, size_setNewer, size_setOlder]

theorem free_append (r : Recency K) (i : Nat) : (r.append i).free = r.free := rfl

@[simp] theorem index_append (r : Recency K) (i : Nat) : (r.append i).index = r.index := rfl

theorem Threaded.unlink {r : Recency K} {a b : List (Nat × K)} {c : Nat × K}
    (h : r.Threaded (a ++ c :: b)) (hn : (a ++ c :: b).Pairwise fun x y => x.1 ≠ y.1) :
    (r.unlink c.1).Threaded (a ++ b) := by
  rw [unlink_eq h.linked]
  refine ⟨h.linked.joined hn, ?_, ?_⟩
  · cases a with
    | nil => rfl
    | cons x a => simp [List.getLast?_cons, h.eldest]
  · cases b with
    | nil => simp
    | cons x b => simp [List.getLast?_cons, h.newest]

theorem getElem?_unlink {r : Recency K} {a b : List (Nat × K)} {c : Nat × K}
    (h : Linked r.nodes (a ++ c :: b)) : (r.unlink c.1).nodes[c.1]? = some ⟨c.2, none, none⟩ := by
  rw [unlink_eq h, getElem?_joined, h a c b rfl]
  simp

theorem Threaded.append {r : Recency K} {cells : List (Nat × K)} {i : Nat} {k : K}
    {older : Option Nat} (h : r.Threaded cells) (hn : cells.Pairwise fun x y => x.1 ≠ y.1)
    (hi : r.nodes[i]? = some ⟨k, older, none⟩) (fresh : ∀ c ∈ cells, c.1 ≠ i) :
    (r.append i).Threaded (cells ++ [(i, k)]) := by
  refine ⟨?_, ?_, ?_⟩
  · rw [Recency.append, h.newest]
    exact h.linked.appended hn hi fresh
  · rw [Recency.append, h.newest, h.eldest]
    cases cells with
    | nil => rfl
    | cons x cells => simp [List.getLast?_cons]
  · simp [Recency.append]

end ResultCache.Recency
