import ResultCache.Proofs.Recency.Links

/-! The cells of a recency index. The operations keep the array made of the listed nodes and the free
positions, and the index sends each tracked key to its node. -/
namespace ResultCache.Recency
variable {K : Type}

private theorem walk_eq {nodes : Array (Node K)} {after : List (Nat × K)} {steps : Nat}
    (before : List (Nat × K)) (h : Linked nodes (before ++ after)) (hs : after.length ≤ steps) :
    walk nodes steps (after.head?.map Prod.fst) = after.map Prod.snd := by
  induction after generalizing before steps with
  | nil => cases steps <;> rfl
  | cons c after ih =>
    obtain ⟨steps, rfl⟩ : ∃ n, steps = n + 1 := ⟨steps - 1, by rw [List.length_cons] at hs; omega⟩
    have hw := ih (before ++ [c]) (by simpa using h) (Nat.le_of_succ_le_succ hs)
    simp only [List.head?_cons, Option.map_some, walk, h before c after rfl, List.map_cons, hw]

variable [BEq K] [Hashable K]

/-- The cells hold the tracked keys, each once, and all other positions of the array are free. -/
structure Holds (r : Recency K) (cells : List (Nat × K)) : Prop extends r.Threaded cells where
  slots : (cells.map Prod.fst ++ r.free).Perm (List.range r.nodes.size)
  distinct : cells.Pairwise fun c d => (c.2 == d.2) = false
  index : ∀ k i, r.index[k]? = some i ↔ ∃ c ∈ cells, c.1 = i ∧ (c.2 == k) = true
  tracked : r.index.size = cells.length

namespace Holds
variable {r : Recency K} {cells : List (Nat × K)}

theorem positions (h : r.Holds cells) : cells.Pairwise fun c d => c.1 ≠ d.1 := by
  have hn := h.slots.nodup_iff.mpr List.nodup_range
  exact List.pairwise_map.mp (List.nodup_append.mp hn).1

theorem length_le (h : r.Holds cells) : cells.length ≤ r.nodes.size := by
  have := h.slots.length_eq
  rw [List.length_append, List.length_map, List.length_range] at this
  omega

/-- Following the links from the eldest node meets every tracked key once and nothing else. -/
theorem toList_eq (h : r.Holds cells) : r.toList = cells.map Prod.snd := by
  rw [toList, h.eldest]
  exact walk_eq [] h.linked h.length_le

theorem size_eq (h : r.Holds cells) : r.size = r.toList.length := by
  rw [size, h.tracked, h.toList_eq, List.length_map]

theorem empty : (Recency.empty : Recency K).Holds [] where
  linked before c after he := by simp at he
  eldest := rfl
  newest := rfl
  slots := .nil
  distinct := .nil
  index k i := by simp [Recency.empty]
  tracked := rfl

/-- A position for a new key is one that no listed node has. -/
theorem place (h : r.Holds cells) (k : K) :
    ∃ i s, r.place k = (i, s) ∧ s.Threaded cells ∧ s.nodes[i]? = some ⟨k, none, none⟩ ∧
      (∀ c ∈ cells, c.1 ≠ i) ∧ s.index = r.index ∧
      (((cells ++ [(i, k)]).map Prod.fst) ++ s.free).Perm (List.range s.nodes.size) := by
  have hn := h.slots.nodup_iff.mpr List.nodup_range
  have hs := h.slots
  rw [Recency.place]
  cases hfree : r.free with
  | nil =>
    rw [hfree, List.append_nil] at hs
    have hne : ∀ c ∈ cells, c.1 ≠ r.nodes.size := fun c hc =>
      Nat.ne_of_lt (List.mem_range.mp (hs.mem_iff.mp (List.mem_map_of_mem hc)))
    refine ⟨_, _, rfl, ⟨h.linked.frame fun c hc => ?_, h.eldest, h.newest⟩, by simp, hne, rfl, ?_⟩
    · rw [Array.getElem?_push, if_neg (hne c hc)]
    · simp only [Array.size_push, List.range_succ, List.map_append, List.append_nil]
      exact hs.append_right _
  | cons i free =>
    rw [hfree] at hn hs
    have hlt : i < r.nodes.size := List.mem_range.mp (hs.mem_iff.mp (by simp))
    have hne : ∀ c ∈ cells, c.1 ≠ i := fun c hc =>
      (List.nodup_append.mp hn).2.2 c.1 (List.mem_map_of_mem hc) i List.mem_cons_self
    refine ⟨_, _, rfl, ⟨h.linked.frame fun c hc => ?_, h.eldest, h.newest⟩, by simp [hlt], hne, rfl, ?_⟩
    · rw [Array.getElem?_setIfInBounds, if_neg (hne c hc).symm]
    · simpa using hs

theorem index_none {k : K} (h : r.Holds cells) (hk : ∀ c ∈ cells, (c.2 == k) = false) :
    r.index[k]? = none := by
  rw [Option.eq_none_iff_forall_ne_some]
  intro i hi
  obtain ⟨c, hc, _, hck⟩ := (h.index k i).mp hi
  rw [hk c hc] at hck
  cases hck

theorem touch_of_untracked {k : K} (h : r.Holds cells) (hk : ∀ c ∈ cells, (c.2 == k) = false) :
    r.touch k = r := by
  rw [Recency.touch, h.index_none hk]

/-- Insertion of a key that is there already is a touch. -/
theorem insert_eq_touch {k : K} (h : r.Holds cells) (hk : ∃ c ∈ cells, (c.2 == k) = true) :
    r.insert k = r.touch k := by
  obtain ⟨c, hc, hck⟩ := hk
  rw [Recency.insert, Recency.touch, (h.index k c.1).mpr ⟨c, hc, rfl, hck⟩]

theorem popEldest_nil (h : r.Holds []) : r.popEldest = (none, r) := by
  rw [Recency.popEldest, h.eldest]
  rfl

variable [EquivBEq K]

/-- A touched key goes to the newest end. -/
theorem touch {a b : List (Nat × K)} {c : Nat × K} {k : K} (h : r.Holds (a ++ c :: b))
    (hk : (c.2 == k) = true) : (r.touch k).Holds (a ++ b ++ [c]) := by
  have hi : r.index[k]? = some c.1 := (h.index k c.1).mpr ⟨c, by simp, rfl, hk⟩
  have hn := h.positions
  have hp : (a ++ b ++ [c]).Perm (a ++ c :: b) := by
    rw [List.append_assoc]
    exact (List.perm_append_singleton c b).append_left a
  obtain ⟨hc, hrest⟩ := List.pairwise_cons.mp (List.perm_middle.pairwise hn Ne.symm)
  have ht := (h.unlink hn).append hrest (getElem?_unlink h.linked) fun d hd => (hc d hd).symm
  rw [Recency.touch, hi]
  exact {
    toThreaded := ht
    slots := by
      rw [free_append, free_unlink, size_append, size_unlink]
      exact ((hp.map Prod.fst).append_right r.free).trans h.slots
    distinct := hp.symm.pairwise h.distinct fun hcd => by rwa [BEq.comm]
    index := fun k i => by simp only [index_append, index_unlink, h.index k i, hp.mem_iff]
    tracked := by rw [index_append, index_unlink, h.tracked, hp.length_eq] }

variable [LawfulHashable K]

theorem contains_eq (h : r.Holds cells) (k : K) : r.contains k = r.toList.any (· == k) := by
  rw [contains, Std.HashMap.contains_eq_isSome_getElem?, Bool.eq_iff_iff, Option.isSome_iff_exists,
    h.toList_eq, List.any_map, List.any_eq_true]
  constructor
  · rintro ⟨i, hi⟩
    obtain ⟨c, hc, _, hk⟩ := (h.index k i).mp hi
    exact ⟨c, hc, hk⟩
  · rintro ⟨c, hc, hk⟩
    exact ⟨c.1, (h.index k c.1).mpr ⟨c, hc, rfl, hk⟩⟩

/-- A new key is added at the newest end. -/
theorem insert {k : K} (h : r.Holds cells) (hk : ∀ c ∈ cells, (c.2 == k) = false) :
    ∃ i, (r.insert k).Holds (cells ++ [(i, k)]) := by
  have hnone := h.index_none hk
  obtain ⟨i, s, hp, ht, hi, hne, hindex, hslots⟩ := h.place k
  have ht' : { s with index := s.index.insert k i }.Threaded cells := ⟨ht.linked, ht.eldest, ht.newest⟩
  refine ⟨i, ?_⟩
  rw [Recency.insert, hnone, hp]
  exact {
    toThreaded := ht'.append h.positions hi hne
    slots := by rwa [free_append, size_append]
    distinct := by
      refine List.pairwise_append.mpr ⟨h.distinct, List.pairwise_singleton _ _, fun c hc d hd => ?_⟩
      rw [List.mem_singleton.mp hd]
      exact hk c hc
    index := fun k' j => by
      rw [index_append, hindex, Std.HashMap.getElem?_insert]
      by_cases hkk : (k == k') = true
      · have hold : ∀ c ∈ cells, (c.2 == k') = false := fun c hc => by
          rw [← BEq.congr_right hkk, hk c hc]
        simp only [hkk, if_true, Option.some.injEq, List.mem_append, List.mem_singleton]
        constructor
        · rintro rfl
          exact ⟨(i, k), .inr rfl, rfl, hkk⟩
        · rintro ⟨c, hc | rfl, rfl, hck⟩
          · rw [hold c hc] at hck
            cases hck
          · rfl
      · rw [if_neg hkk, h.index k' j]
        simp [hkk, or_and_right, exists_or]
    tracked := by
      rw [index_append, hindex, Std.HashMap.size_insert, h.tracked, List.length_append,
        if_neg (by simp [Std.HashMap.mem_iff_isSome_getElem?, hnone])]
      rfl }

/-- The eldest key is the first one, and its position becomes free. -/
theorem popEldest {c : Nat × K} (h : r.Holds (c :: cells)) :
    ∃ s, r.popEldest = (some c.2, s) ∧ s.Holds cells := by
  obtain ⟨hc, hd⟩ := List.pairwise_cons.mp h.distinct
  have ht := Threaded.unlink (a := []) h.toThreaded h.positions
  refine ⟨{ r.unlink c.1 with
    free := c.1 :: (r.unlink c.1).free, index := (r.unlink c.1).index.erase c.2 }, ?_, ?_⟩
  · have hi := h.linked [] c cells rfl
    simp only [Recency.popEldest, h.eldest, List.head?_cons, Option.map_some, hi]
  exact {
    toThreaded := ⟨ht.linked, ht.eldest, ht.newest⟩
    slots := by
      simp only [free_unlink, size_unlink]
      exact List.perm_middle.trans h.slots
    distinct := hd
    index := fun k i => by
      rw [index_unlink, Std.HashMap.getElem?_erase]
      by_cases hck : (c.2 == k) = true
      · have hold : ∀ d ∈ cells, (d.2 == k) = false := fun d hd => by
          rw [← BEq.congr_right hck, BEq.comm, hc d hd]
        simp only [hck, if_true, reduceCtorEq, false_iff, not_exists, not_and]
        intro d hd _ hdk
        rw [hold d hd] at hdk
        cases hdk
      · rw [if_neg hck, h.index k i]
        simp [hck]
    tracked := by
      rw [index_unlink, Std.HashMap.size_erase, h.tracked, if_pos]
      · rfl
      · rw [Std.HashMap.mem_iff_isSome_getElem?,
          (h.index c.2 c.1).mpr ⟨c, List.mem_cons_self, rfl, BEq.rfl⟩]
        rfl }

end Holds

end ResultCache.Recency
