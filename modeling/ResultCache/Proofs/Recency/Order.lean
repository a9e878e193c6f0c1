import ResultCache.Proofs.Recency.Cells

/-! What the operations of a recency index do to the keys read from the eldest to the newest: a touch
moves a key to the end, an insertion does so or adds the key there, and the eldest is the first. -/
namespace ResultCache.Recency
variable {K : Type} [BEq K]

/-- The keys after a touch: the touched one, if it is there, goes to the end. -/
def moveToEnd (k : K) (keys : List K) : List K :=
  keys.filter (fun a => !(a == k)) ++ keys.filter (· == k)

theorem moveToEnd_of_absent {k : K} {keys : List K} (h : ∀ a ∈ keys, (a == k) = false) :
    moveToEnd k keys = keys := by
  rw [moveToEnd, List.filter_eq_self.mpr (by simpa using h),
    List.filter_eq_nil_iff.mpr (by simpa using h), List.append_nil]

/-- Among keys that are pairwise different at most one is the touched one. -/
theorem filter_of_split {k c : K} {a b : List K} [EquivBEq K] (hk : (c == k) = true)
    (h : (a ++ c :: b).Pairwise fun x y => (x == y) = false) :
    (a ++ c :: b).filter (fun x => !(x == k)) = a ++ b ∧ (a ++ c :: b).filter (· == k) = [c] := by
  obtain ⟨_, hcb, hab⟩ := List.pairwise_append.mp h
  have ha : ∀ x ∈ a, (x == k) = false := fun x hx => by
    rw [← BEq.congr_right hk]
    exact hab x hx c List.mem_cons_self
  have hb : ∀ x ∈ b, (x == k) = false := fun x hx => by
    rw [← BEq.congr_right hk, BEq.comm]
    exact (List.pairwise_cons.mp hcb).1 x hx
  constructor
  · rw [List.filter_append, List.filter_cons_of_neg (by simp [hk]),
      List.filter_eq_self.mpr (by simpa using ha), List.filter_eq_self.mpr (by simpa using hb)]
  · rw [List.filter_append, List.filter_cons_of_pos (by simp [hk]),
      List.filter_eq_nil_iff.mpr (by simpa using ha),
      List.filter_eq_nil_iff.mpr (by simpa using hb), List.nil_append]

theorem length_moveToEnd (k : K) (keys : List K) : (moveToEnd k keys).length = keys.length := by
  rw [moveToEnd, List.length_append, ← List.countP_eq_length_filter, ← List.countP_eq_length_filter,
    Nat.add_comm, List.length_eq_countP_add_countP (· == k)]
  simp only [Bool.not_eq_true, Bool.decide_eq_false]

/-- The key that moves to the end is one of those listed. -/
theorem moveToEnd_eq {k : K} {keys : List K} [EquivBEq K]
    (h : keys.Pairwise fun x y => (x == y) = false) (hk : keys.any (· == k) = true) :
    ∃ c, (c == k) = true ∧ moveToEnd k keys = keys.filter (fun x => !(x == k)) ++ [c] := by
  obtain ⟨c, hc, hck⟩ := List.any_eq_true.mp hk
  obtain ⟨a, b, rfl⟩ := List.append_of_mem hc
  exact ⟨c, hck, by rw [moveToEnd, (filter_of_split hck h).2]⟩

variable [Hashable K]

theorem touch_of_untracked {r : Recency K} [EquivBEq K] [LawfulHashable K] {k : K}
    (h : r.contains k = false) : r.touch k = r := by
  rw [contains, Std.HashMap.contains_eq_isSome_getElem?, Option.isSome_eq_false_iff,
    Option.isNone_iff_eq_none] at h
  rw [touch, h]

def WellFormed (r : Recency K) : Prop := ∃ cells, r.Holds cells

namespace WellFormed
variable {r : Recency K}

theorem empty : (Recency.empty : Recency K).WellFormed := ⟨[], .empty⟩

theorem size_eq (h : r.WellFormed) : r.size = r.toList.length := h.elim fun _ h => h.size_eq

theorem distinct (h : r.WellFormed) : r.toList.Pairwise fun a b => (a == b) = false := by
  obtain ⟨cells, h⟩ := h
  rw [h.toList_eq]
  exact List.pairwise_map.mpr h.distinct

variable [EquivBEq K]

theorem touch (h : r.WellFormed) (k : K) :
    (r.touch k).WellFormed ∧ (r.touch k).toList = moveToEnd k r.toList := by
  obtain ⟨cells, h⟩ := h
  by_cases hk : ∃ c ∈ cells, (c.2 == k) = true
  · obtain ⟨c, hc, hck⟩ := hk
    obtain ⟨a, b, rfl⟩ := List.append_of_mem hc
    have ht := h.touch hck
    refine ⟨⟨_, ht⟩, ?_⟩
    have hd := distinct ⟨_, h⟩
    rw [h.toList_eq, List.map_append, List.map_cons] at hd
    obtain ⟨hrest, hone⟩ := filter_of_split hck hd
    simp only [ht.toList_eq, h.toList_eq, List.map_append, List.map_cons, List.map_nil, moveToEnd,
      hrest, hone]
  · have hn : ∀ c ∈ cells, (c.2 == k) = false := by simpa using hk
    rw [h.touch_of_untracked hn]
    refine ⟨⟨cells, h⟩, (moveToEnd_of_absent fun a ha => ?_).symm⟩
    rw [h.toList_eq] at ha
    obtain ⟨c, hc, rfl⟩ := List.mem_map.mp ha
    exact hn c hc

theorem size_touch (h : r.WellFormed) (k : K) : (r.touch k).size = r.size := by
  obtain ⟨hw, hlist⟩ := h.touch k
  rw [hw.size_eq, hlist, length_moveToEnd, h.size_eq]

variable [LawfulHashable K]

theorem contains_eq (h : r.WellFormed) (k : K) : r.contains k = r.toList.any (· == k) :=
  h.elim fun _ h => h.contains_eq k

theorem insert (h : r.WellFormed) (k : K) :
    (r.insert k).WellFormed ∧
      (r.insert k).toList = if r.contains k then moveToEnd k r.toList else r.toList ++ [k] := by
  rw [h.contains_eq]
  by_cases hk : r.toList.any (· == k) = true
  · rw [if_pos hk, ← (h.touch k).2]
    obtain ⟨cells, hc⟩ := h
    have hm : ∃ c ∈ cells, (c.2 == k) = true := by
      simpa [hc.toList_eq] using hk
    rw [hc.insert_eq_touch hm]
    exact ⟨(touch ⟨cells, hc⟩ k).1, rfl⟩
  · rw [if_neg hk]
    obtain ⟨cells, hc⟩ := h
    obtain ⟨i, hi⟩ := hc.insert (k := k) (by simpa [hc.toList_eq] using hk)
    refine ⟨⟨_, hi⟩, ?_⟩
    rw [hi.toList_eq, hc.toList_eq, List.map_append]
    rfl

theorem popEldest (h : r.WellFormed) :
    r.popEldest.1 = r.toList.head? ∧ r.popEldest.2.WellFormed ∧
      r.popEldest.2.toList = r.toList.tail := by
  obtain ⟨cells, h⟩ := h
  cases cells with
  | nil =>
    rw [h.popEldest_nil, h.toList_eq]
    exact ⟨rfl, ⟨[], h⟩, rfl⟩
  | cons c cells =>
    obtain ⟨s, hs, ht⟩ := h.popEldest
    rw [hs, h.toList_eq, ht.toList_eq]
    exact ⟨rfl, ⟨cells, ht⟩, rfl⟩

/-- Tracking a key drops the first key of the list if the list has become too long. -/
theorem track (h : r.WellFormed) (capacity : Nat) (k : K) :
    (r.track capacity k).2.WellFormed ∧
      if capacity < (r.insert k).toList.length then
        (r.track capacity k).1 = (r.insert k).toList.head? ∧
          (r.track capacity k).2.toList = (r.insert k).toList.tail
      else (r.track capacity k).1 = none ∧ (r.track capacity k).2.toList = (r.insert k).toList := by
  have hi := (h.insert k).1
  rw [Recency.track, hi.size_eq]
  split
  · exact ⟨hi.popEldest.2.1, hi.popEldest.1, hi.popEldest.2.2⟩
  · exact ⟨hi, rfl, rfl⟩

theorem size_insert (h : r.WellFormed) (k : K) :
    (r.insert k).size = r.size + if r.contains k then 0 else 1 := by
  obtain ⟨hw, hlist⟩ := h.insert k
  rw [hw.size_eq, hlist, h.size_eq]
  split
  · exact length_moveToEnd k r.toList
  · exact List.length_append

/-- A key goes if the tracked ones have become more than the capacity, and then it is one. -/
theorem size_track (h : r.WellFormed) (capacity : Nat) (k : K) :
    ((r.track capacity k).1.isSome = true ↔ capacity < r.size + if r.contains k then 0 else 1) ∧
      (r.track capacity k).2.size + (if (r.track capacity k).1.isSome then 1 else 0) =
        r.size + if r.contains k then 0 else 1 := by
  obtain ⟨hw, htrack⟩ := h.track capacity k
  have hi := (h.insert k).1
  rw [← h.size_insert k]
  rw [← hi.size_eq] at htrack
  split at htrack
  · next hlt =>
    obtain ⟨hgone, hlist⟩ := htrack
    obtain ⟨a, keys, hkeys⟩ := List.exists_cons_of_ne_nil
      (List.ne_nil_of_length_pos (hi.size_eq ▸ Nat.zero_lt_of_lt hlt))
    rw [hw.size_eq, hlist, hgone, hi.size_eq, hkeys]
    rw [hi.size_eq, hkeys] at hlt
    exact ⟨iff_of_true rfl hlt, rfl⟩
  · next hle =>
    obtain ⟨hgone, hlist⟩ := htrack
    rw [hw.size_eq, hlist, hgone, ← hi.size_eq]
    exact ⟨iff_of_false Bool.false_ne_true hle, rfl⟩

end WellFormed
end ResultCache.Recency
