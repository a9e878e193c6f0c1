import ResultCache.Proofs.Recency.Membership

/-! What a lookup does to the order of keys, and what the order decides. A key that is looked up becomes the
newest; which keys are dropped from then on depends on the order alone. -/
namespace ResultCache.Recency
variable {K V : Type} [BEq K]

/-- Moving a key to the end changes nothing if it is not there, or is there already. -/
theorem moveToEnd_eq_self_iff [EquivBEq K] {k : K} {keys : List K}
    (h : keys.Pairwise fun a b => (a == b) = false) :
    moveToEnd k keys = keys ↔
      keys.any (· == k) = false ∨ ∃ e, keys.getLast? = some e ∧ (e == k) = true := by
  constructor
  · intro hsame
    rw [or_iff_not_imp_left, Bool.not_eq_false]
    intro hk
    obtain ⟨c, hck, hmoved⟩ := moveToEnd_eq h hk
    refine ⟨c, ?_, hck⟩
    rw [← hsame, hmoved, List.getLast?_concat]
  · rintro (hnone | ⟨e, he, hek⟩)
    · rw [List.any_eq_false] at hnone
      exact moveToEnd_of_absent fun a ha => Bool.eq_false_iff.mpr (hnone a ha)
    · obtain ⟨older, rfl⟩ := List.getLast?_eq_some_iff.mp he
      obtain ⟨hrest, hone⟩ := filter_of_split hek h
      rw [moveToEnd, hrest, hone, List.append_nil]

variable [Hashable K]

/-- The keys that a layer drops in further requests, none or one in each. -/
def victims (capacity : Nat) (r : Recency K) : List (Request K V) → List (Option K)
  | [] => []
  | request :: requests =>
    r.dropped capacity request :: (r.after capacity request).victims capacity requests

namespace WellFormed
variable [EquivBEq K] [LawfulHashable K] {r r' : Recency K}

/-- A new key for which there is a place is added at the end. -/
theorem track_room (h : r.WellFormed) {capacity : Nat} {k : K} (hk : r.contains k = false)
    (hroom : r.toList.length < capacity) :
    (r.track capacity k).1 = none ∧ (r.track capacity k).2.toList = r.toList ++ [k] := by
  have hle : ¬ capacity < r.toList.length + 1 := by omega
  have htrack := (h.track capacity k).2
  rw [(h.insert k).2, hk, if_neg Bool.false_ne_true, List.length_append, List.length_singleton,
    if_neg hle] at htrack
  exact htrack

/-- If all places are taken, the key that stands first makes room for a new one. -/
theorem track_full (h : r.WellFormed) {capacity : Nat} {k : K} (hk : r.contains k = false)
    (hfull : capacity ≤ r.toList.length) :
    (r.track capacity k).1 = (r.toList ++ [k]).head? ∧
      (r.track capacity k).2.toList = (r.toList ++ [k]).tail := by
  have hlt : capacity < r.toList.length + 1 := Nat.lt_succ_of_le hfull
  have htrack := (h.track capacity k).2
  rw [(h.insert k).2, hk, if_neg Bool.false_ne_true, List.length_append, List.length_singleton,
    if_pos hlt] at htrack
  exact htrack

/-- New keys push the tracked ones out in their order. -/
theorem victims_new (h : r.WellFormed) {capacity : Nat} (hsize : r.size ≤ capacity) {fresh : List K}
    (hd : fresh.Pairwise fun a b => (a == b) = false) (hfresh : ∀ f ∈ fresh, r.contains f = false) (v : V) :
    (r.victims capacity (fresh.map fun f => .put f v)).filterMap id =
      (r.toList ++ fresh).take (r.size + fresh.length - capacity) := by
  rw [h.size_eq] at hsize ⊢
  induction fresh generalizing r with
  | nil => rw [List.length_nil, Nat.add_zero, Nat.sub_eq_zero_of_le hsize, List.take_zero]; rfl
  | cons f fresh ih =>
    obtain ⟨hf, hd⟩ := List.pairwise_cons.mp hd
    obtain ⟨hk, hrest⟩ := List.forall_mem_cons.mp hfresh
    have hw := (h.track capacity f).1
    have hnew : ∀ j ∈ fresh, (r.track capacity f).2.contains j = false := by
      intro j hj
      rw [contains_track, hf j hj, hrest j hj]
      rfl
    change ((r.track capacity f).1 :: (r.track capacity f).2.victims capacity _).filterMap id = _
    rcases Nat.lt_or_ge r.toList.length capacity with hroom | hfull
    · obtain ⟨hnone, hlist⟩ := h.track_room hk hroom
      have hlength : (r.track capacity f).2.toList.length = r.toList.length + 1 := by
        rw [hlist, List.length_append, List.length_singleton]
      rw [hnone, List.filterMap_cons_none rfl, ih hw (by omega) hd hnew, hlength, hlist, List.append_assoc,
        List.singleton_append, List.length_cons, Nat.add_right_comm, Nat.add_assoc]
    · obtain ⟨hgone, hlist⟩ := h.track_full hk hfull
      obtain ⟨e, keys, hkeys⟩ := List.exists_cons_of_ne_nil
        (List.append_ne_nil_of_right_ne_nil r.toList (List.cons_ne_nil f []))
      have hlength : keys.length = r.toList.length := by
        have := congrArg List.length hkeys
        simpa using this.symm
      have hall : r.toList ++ f :: fresh = e :: (keys ++ fresh) := by
        rw [List.append_cons, hkeys, List.cons_append]
      have hcount : r.toList.length + (fresh.length + 1) - capacity =
          keys.length + fresh.length - capacity + 1 := by omega
      rw [hkeys] at hgone hlist
      have hle : (r.track capacity f).2.toList.length ≤ capacity := by
        rw [hlist, List.tail_cons, hlength]
        exact hsize
      rw [hgone, List.head?_cons]
      change e :: ((r.track capacity f).2.victims capacity _).filterMap id = _
      rw [ih hw hle hd hnew, hlist, List.tail_cons, hall, List.length_cons, hcount, List.take_succ_cons]

theorem after (h : r.WellFormed) (capacity : Nat) (request : Request K V) :
    (r.after capacity request).WellFormed := by
  cases request with
  | put k v => exact (h.track capacity k).1
  | get k => exact (h.touch k).1
  | remove k => exact h
  | size => exact h
  | clear => exact .empty

private theorem after_congr (h : r.WellFormed) (h' : r'.WellFormed) (horder : r.toList = r'.toList)
    (capacity : Nat) (request : Request K V) :
    r.dropped capacity request = r'.dropped capacity request ∧
      (r.after capacity request).toList = (r'.after capacity request).toList := by
  cases request with
  | put k v =>
    have hinsert : (r.insert k).toList = (r'.insert k).toList := by
      rw [(h.insert k).2, (h'.insert k).2, h.contains_eq, h'.contains_eq, horder]
    have htrack := (h.track capacity k).2
    have htrack' := (h'.track capacity k).2
    rw [hinsert] at htrack
    split at htrack
    · next hlt =>
      rw [if_pos hlt] at htrack'
      exact ⟨htrack.1.trans htrack'.1.symm, htrack.2.trans htrack'.2.symm⟩
    · next hle =>
      rw [if_neg hle] at htrack'
      exact ⟨htrack.1.trans htrack'.1.symm, htrack.2.trans htrack'.2.symm⟩
  | get k =>
    refine ⟨rfl, ?_⟩
    change (r.touch k).toList = (r'.touch k).toList
    rw [(h.touch k).2, (h'.touch k).2, horder]
  | remove k => exact ⟨rfl, horder⟩
  | size => exact ⟨rfl, horder⟩
  | clear => exact ⟨rfl, rfl⟩

theorem victims_congr (h : r.WellFormed) (h' : r'.WellFormed) (horder : r.toList = r'.toList)
    (capacity : Nat) (requests : List (Request K V)) :
    r.victims capacity requests = r'.victims capacity requests := by
  induction requests generalizing r r' with
  | nil => rfl
  | cons request requests ih =>
    obtain ⟨hdropped, hnext⟩ := h.after_congr h' horder capacity request
    rw [victims, victims, hdropped, ih (h.after capacity request) (h'.after capacity request) hnext]

/-- A lookup leaves the order as it is if its key is not tracked or is the newest already. -/
theorem touch_eq_iff (h : r.WellFormed) (k : K) : (r.touch k).toList = r.toList ↔
    r.contains k = false ∨ ∃ e, r.toList.getLast? = some e ∧ (e == k) = true := by
  rw [(h.touch k).2, moveToEnd_eq_self_iff h.distinct, h.contains_eq]

end WellFormed
end ResultCache.Recency
