import Mathlib.Data.List.Forall2
import ResultCache.Proofs.Recency.Order

/-! A recency index that drops its eldest key when it grows beyond a capacity, told by the touches
alone. Touches are listed with the latest in front. -/
namespace ResultCache.Recency
variable {K : Type} [BEq K]

/-- The keys met first when the touches are read backwards, each once. -/
def recent (capacity : Nat) (past : List K) : List K := past.eraseDups.take capacity

/-- The keys that are no longer among the recent ones after a touch. The touched key may be one. -/
def leaving (capacity : Nat) (past : List K) (k : K) : List K :=
  (k :: recent capacity past).filter fun a => !(recent capacity (k :: past)).any (· == a)

/-- The same keys in the same order, whichever of several equal keys stand for them. -/
abbrev Alike : List K → List K → Prop := List.Forall₂ fun a b => (a == b) = true

theorem length_recent_le (capacity : Nat) (past : List K) :
    (recent capacity past).length ≤ capacity := by
  rw [recent, List.length_take]
  exact Nat.min_le_left _ _

private theorem tail_reverse {α : Type} {keys : List α} {n : Nat} (h : keys.length = n + 1) :
    keys.tail.reverse = keys.reverse.take n ∧ keys.head?.toList = keys.reverse.drop n := by
  cases keys with
  | nil => cases h
  | cons a keys =>
    have hn : n = keys.reverse.length := by rw [List.length_reverse]; exact (Nat.succ.inj h).symm
    rw [List.reverse_cons, hn, List.take_left, List.drop_left]
    exact ⟨rfl, rfl⟩

/-- Dropping repetitions goes on with those keys that are unlike the first. -/
theorem eraseDups_induction {motive : List K → Prop} (nil : motive [])
    (cons : ∀ a keys, motive (keys.filter fun b => !(b == a)) → motive (a :: keys)) (keys : List K) :
    motive keys := by
  induction hn : keys.length using Nat.strongRecOn generalizing keys with
  | ind n ih =>
    cases keys with
    | nil => exact nil
    | cons a keys =>
      have hlt : (keys.filter fun b => !(b == a)).length < n :=
        Nat.lt_of_le_of_lt (List.length_filter_le _ _) (by rw [← hn]; exact Nat.lt_succ_self _)
      exact cons a keys (ih _ hlt _ rfl)

section
variable [EquivBEq K]

theorem filter_eraseDups {k : K} (past : List K) :
    (past.filter fun a => !(a == k)).eraseDups = past.eraseDups.filter fun a => !(a == k) := by
  induction past using eraseDups_induction with
  | nil => rfl
  | cons a past hi =>
    rw [List.eraseDups_cons]
    by_cases hk : (a == k) = true
    · have hsub : (past.filter fun b => !(b == a)).filter (fun b => !(b == k)) =
          past.filter fun b => !(b == k) := by
        rw [List.filter_filter]
        refine List.filter_congr fun b _ => ?_
        rw [BEq.congr_right hk, Bool.and_self]
      rw [List.filter_cons_of_neg (by simp [hk]), List.filter_cons_of_neg (by simp [hk]), ← hi, hsub]
    · rw [List.filter_cons_of_pos (by simp [hk]), List.filter_cons_of_pos (by simp [hk]),
        List.eraseDups_cons, ← hi, List.filter_filter, List.filter_filter]
      simp only [Bool.and_comm]

theorem distinct_eraseDups (past : List K) :
    past.eraseDups.Pairwise fun a b => (a == b) = false := by
  induction past using eraseDups_induction with
  | nil => exact .nil
  | cons a past hi =>
    rw [List.eraseDups_cons]
    refine List.pairwise_cons.mpr ⟨fun b hb => ?_, hi⟩
    rw [filter_eraseDups, List.mem_filter] at hb
    rw [BEq.comm]
    simpa using hb.2

theorem distinct_recent (capacity : Nat) (past : List K) :
    (recent capacity past).Pairwise fun a b => (a == b) = false :=
  (distinct_eraseDups past).sublist (List.take_sublist _ _)

theorem distinct_cons_recent (capacity : Nat) (past : List K) (k : K) :
    (k :: (recent capacity past).filter fun a => !(a == k)).Pairwise fun a b => (a == b) = false := by
  refine List.pairwise_cons.mpr ⟨fun b hb => ?_, (distinct_recent capacity past).filter _⟩
  rw [BEq.comm]
  simpa using (List.mem_filter.mp hb).2

private theorem take_filter_take {k : K} {keys : List K} (n : Nat)
    (h : keys.Pairwise fun a b => (a == b) = false) :
    ((keys.take (n + 1)).filter fun a => !(a == k)).take n =
      (keys.filter fun a => !(a == k)).take n := by
  induction keys generalizing n with
  | nil => rfl
  | cons a keys ih =>
    obtain ⟨ha, hd⟩ := List.pairwise_cons.mp h
    by_cases hk : (a == k) = true
    · -- the one place more makes up for this key, and no other key is left out
      have hrest : ∀ b ∈ keys, !(b == k) := fun b hb => by
        rw [← BEq.congr_right hk, BEq.comm, ha b hb]
        rfl
      rw [List.take_succ_cons, List.filter_cons_of_neg (by simp [hk]),
        List.filter_cons_of_neg (by simp [hk]), List.filter_eq_self.mpr hrest,
        List.filter_eq_self.mpr fun b hb => hrest b (List.mem_of_mem_take hb), List.take_take,
        Nat.min_self]
    · rw [List.take_succ_cons, List.filter_cons_of_pos (by simp [hk]),
        List.filter_cons_of_pos (by simp [hk])]
      cases n with
      | zero => rfl
      | succ n => rw [List.take_succ_cons, List.take_succ_cons, ih n hd]

/-- After a touch the recent keys are the touched one and those of the others for which there is
still a place. -/
theorem recent_cons (capacity : Nat) (past : List K) (k : K) :
    recent capacity (k :: past) =
      (k :: (recent capacity past).filter fun a => !(a == k)).take capacity := by
  cases capacity with
  | zero => rfl
  | succ n =>
    rw [recent, recent, List.eraseDups_cons, filter_eraseDups, List.take_succ_cons,
      List.take_succ_cons, take_filter_take n (distinct_eraseDups past)]

private theorem filter_not_take {keys : List K} (n : Nat)
    (h : keys.Pairwise fun a b => (a == b) = false) :
    (keys.filter fun a => !(keys.take n).any (· == a)) = keys.drop n := by
  induction keys generalizing n with
  | nil => simp
  | cons a keys ih =>
    obtain ⟨ha, hd⟩ := List.pairwise_cons.mp h
    cases n with
    | zero => simp
    | succ n =>
      rw [List.take_succ_cons, List.filter_cons_of_neg (by simp), List.drop_succ_cons, ← ih n hd]
      refine List.filter_congr fun b hb => ?_
      rw [List.any_cons, ha b hb, Bool.false_or]

/-- The keys that leave are those beyond the last place. -/
theorem leaving_eq (capacity : Nat) (past : List K) (k : K) :
    leaving capacity past k =
      (k :: (recent capacity past).filter fun a => !(a == k)).drop capacity := by
  rw [← filter_not_take capacity (distinct_cons_recent capacity past k), leaving, recent_cons]
  cases capacity with
  | zero => rfl
  | succ n =>
    rw [List.take_succ_cons, List.filter_cons_of_neg (by simp), List.filter_cons_of_neg (by simp),
      List.filter_filter]
    refine List.filter_congr fun b _ => ?_
    rw [List.any_cons, Bool.not_or, BEq.comm, Bool.and_assoc, Bool.and_comm _ (!(b == k)),
      ← Bool.and_assoc, Bool.and_self]

theorem length_leaving_le (capacity : Nat) (past : List K) (k : K) :
    (leaving capacity past k).length ≤ 1 := by
  have := List.length_filter_le (fun a => !(a == k)) (recent capacity past)
  have := length_recent_le capacity past
  rw [leaving_eq, List.length_drop, List.length_cons]
  omega

private theorem Alike.filter {keys keys' : List K} (h : Alike keys keys') (k : K) :
    Alike (keys.filter fun a => !(a == k)) (keys'.filter fun a => !(a == k)) :=
  List.rel_filter (fun a b hab => by simp only [BEq.congr_left hab]) h

private theorem Alike.any_eq {keys keys' : List K} (h : Alike keys keys') (k : K) :
    keys.any (· == k) = keys'.any (· == k) := by
  induction h with
  | nil => rfl
  | cons hab _ ih => rw [List.any_cons, List.any_cons, ih, BEq.congr_left hab]

end

section
variable [Hashable K] {r : Recency K} {capacity : Nat} {past : List K}

/-- The index tracks the recent keys, the newest one last. -/
structure Follows (r : Recency K) (capacity : Nat) (past : List K) : Prop where
  wellFormed : r.WellFormed
  keys : Alike r.toList.reverse (recent capacity past)

namespace Follows

theorem empty (capacity : Nat) : (Recency.empty : Recency K).Follows capacity [] := by
  refine ⟨.empty, ?_⟩
  rw [recent, List.eraseDups_nil, List.take_nil]
  exact .nil

theorem size_eq (h : r.Follows capacity past) : r.size = (recent capacity past).length := by
  rw [h.wellFormed.size_eq, ← h.keys.length_eq, List.length_reverse]

variable [EquivBEq K]

private theorem alike_moved (h : r.Follows capacity past) {k c : K} (hc : (c == k) = true) :
    Alike (r.toList.filter (fun a => !(a == k)) ++ [c]).reverse
      (k :: (recent capacity past).filter fun a => !(a == k)) := by
  rw [List.reverse_append, ← List.filter_reverse]
  exact .cons hc (h.keys.filter k)

variable [LawfulHashable K]

theorem contains_eq (h : r.Follows capacity past) (k : K) :
    r.contains k = (recent capacity past).any (· == k) := by
  rw [h.wellFormed.contains_eq, ← h.keys.any_eq, List.any_reverse]

theorem touch (h : r.Follows capacity past) {k : K} (hk : r.contains k = true) :
    (r.touch k).Follows capacity (k :: past) := by
  have hany := hk
  rw [h.contains_eq] at hany
  rw [h.wellFormed.contains_eq] at hk
  obtain ⟨hw, ht⟩ := h.wellFormed.touch k
  obtain ⟨c, hc, hm⟩ := moveToEnd_eq h.wellFormed.distinct hk
  refine ⟨hw, ?_⟩
  rw [ht, hm, recent_cons, List.take_of_length_le]
  · exact h.alike_moved hc
  · have hlt : ((recent capacity past).filter fun a => !(a == k)).length <
        (recent capacity past).length :=
      List.length_filter_lt_length_iff_exists.mpr (by simpa using hany)
    exact Nat.lt_of_lt_of_le hlt (length_recent_le capacity past)

private theorem insert (h : r.Follows capacity past) (k : K) :
    Alike (r.insert k).toList.reverse (k :: (recent capacity past).filter fun a => !(a == k)) := by
  have hi := (h.wellFormed.insert k).2
  rw [h.wellFormed.contains_eq] at hi
  by_cases hk : r.toList.any (· == k) = true
  · obtain ⟨c, hc, hm⟩ := moveToEnd_eq h.wellFormed.distinct hk
    rw [hi, if_pos hk, hm]
    exact h.alike_moved hc
  · have hself : r.toList.filter (fun a => !(a == k)) = r.toList :=
      List.filter_eq_self.mpr (by simpa using hk)
    rw [hi, if_neg hk, ← hself]
    exact h.alike_moved BEq.rfl

/-- Tracking a key drops just the keys that leave, which is one at most. -/
theorem track (h : r.Follows capacity past) (k : K) :
    (r.track capacity k).2.Follows capacity (k :: past) ∧
      Alike (r.track capacity k).1.toList (leaving capacity past k) := by
  have hi := h.insert k
  have hl := hi.length_eq
  have hle := length_recent_le capacity past
  have hf := List.length_filter_le (fun a => !(a == k)) (recent capacity past)
  rw [List.length_reverse, List.length_cons] at hl
  obtain ⟨hw, ht⟩ := h.wellFormed.track capacity k
  have hkeys : (r.track capacity k).2.toList.reverse = (r.insert k).toList.reverse.take capacity ∧
      (r.track capacity k).1.toList = (r.insert k).toList.reverse.drop capacity := by
    by_cases hc : capacity < (r.insert k).toList.length
    · rw [if_pos hc] at ht
      rw [ht.1, ht.2]
      exact tail_reverse (by omega)
    · rw [if_neg hc] at ht
      have hshort : (r.insert k).toList.reverse.length ≤ capacity := by
        rw [List.length_reverse]
        omega
      rw [ht.1, ht.2, List.take_of_length_le hshort, List.drop_of_length_le hshort]
      exact ⟨rfl, rfl⟩
  refine ⟨⟨hw, ?_⟩, ?_⟩
  · rw [hkeys.1, recent_cons]
    exact List.forall₂_take capacity hi
  · rw [hkeys.2, leaving_eq]
    exact List.forall₂_drop capacity hi

end Follows
end
end ResultCache.Recency
