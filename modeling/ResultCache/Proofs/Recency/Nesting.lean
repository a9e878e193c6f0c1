import ResultCache.Proofs.Recency.Membership

/-! Two recency indexes that get the same requests, one of them with fewer places. What the smaller one
tracks the larger one tracks in the same order. A lookup may find its key in the larger one alone and
reorder that, but then the smaller one is full. -/
namespace ResultCache.Recency
variable {K V : Type}

/-- The keys of a smaller index are some of those of a larger one, in the same order. They are all of them
as long as the smaller one has a place left. -/
structure Nested (capacity : Nat) (small large : List K) : Prop where
  sublist : small.Sublist large
  room : small.length < capacity → small = large

private theorem take_sublist_take {capacity capacity' : Nat} {small large : List K}
    (h : small.Sublist large) (hsmall : small.length = capacity + 1)
    (hlarge : large.length = capacity' + 1) : (small.take capacity).Sublist (large.take capacity') := by
  have hs : small.take capacity = small.dropLast := by rw [List.dropLast_eq_take, hsmall]; rfl
  have hl : large.take capacity' = large.dropLast := by rw [List.dropLast_eq_take, hlarge]; rfl
  rw [hs, hl, ← List.reverse_sublist, ← List.tail_reverse, ← List.tail_reverse]
  exact (List.reverse_sublist.mpr h).tail

namespace Nested
variable [BEq K] {capacity capacity' : Nat} {small large : List K}

/-- A lookup reorders the larger index alone if the smaller one has lost the key. -/
theorem touch_large (h : Nested capacity small large) (hlarge : large.length ≤ capacity') {k : K}
    (hlost : small.any (· == k) = false) (hk : large.any (· == k) = true) :
    Nested capacity small ((k :: large.filter fun a => !(a == k)).take capacity') := by
  have hshorter : (large.filter fun a => !(a == k)).length < large.length :=
    List.length_filter_lt_length_iff_exists.mpr (by simpa using hk)
  have hself : small.filter (fun a => !(a == k)) = small := List.filter_eq_self.mpr (by simpa using hlost)
  constructor
  · rw [List.take_of_length_le (Nat.le_trans hshorter hlarge)]
    have hrest := h.sublist.filter fun a => !(a == k)
    rw [hself] at hrest
    exact hrest.cons k
  · intro hroom
    rw [h.room hroom, hk] at hlost
    cases hlost

variable [EquivBEq K]

private theorem length_le_moved (k : K) (hd : small.Pairwise fun a b => (a == b) = false) :
    small.length ≤ (k :: small.filter fun a => !(a == k)).length := by
  refine length_le_of_contains hd fun a ha => ?_
  rw [List.contains_cons, Bool.or_eq_true]
  by_cases hk : (a == k) = true
  · exact .inl hk
  · refine .inr (List.contains_iff_exists_mem_beq.mpr ⟨a, List.mem_filter.mpr ⟨ha, ?_⟩, BEq.rfl⟩)
    simpa using hk

/-- A key that both make the newest pushes out the last key of the larger index only if it pushes out the
last key of the smaller one. -/
theorem touch (h : Nested capacity small large) (hd : small.Pairwise fun a b => (a == b) = false)
    (hcapacity : capacity ≤ capacity') (hsmall : small.length ≤ capacity)
    (hlarge : large.length ≤ capacity') (k : K) :
    Nested capacity ((k :: small.filter fun a => !(a == k)).take capacity)
      ((k :: large.filter fun a => !(a == k)).take capacity') := by
  have hkept := length_le_moved k hd
  have hle := List.length_filter_le (fun a => !(a == k)) large
  rw [List.length_cons] at hkept
  by_cases hroom : small.length < capacity
  · obtain rfl := h.room hroom
    have hfits : (k :: small.filter fun a => !(a == k)).length ≤ capacity := by
      rw [List.length_cons]
      omega
    rw [List.take_of_length_le hfits, List.take_of_length_le (Nat.le_trans hfits hcapacity)]
    exact ⟨.refl _, fun _ => rfl⟩
  · have hmoved : (k :: small.filter fun a => !(a == k)).Sublist (k :: large.filter fun a => !(a == k)) :=
      (h.sublist.filter _).cons_cons k
    constructor
    · by_cases hfits : (k :: large.filter fun a => !(a == k)).length ≤ capacity'
      · rw [List.take_of_length_le hfits]
        exact (List.take_sublist _ _).trans hmoved
      · rw [List.length_cons] at hfits
        -- the key is new to the larger index, so it is new to the smaller one too
        have hnew : ∀ a ∈ large, (!(a == k)) = true := List.length_filter_eq_length_iff.mp (by omega)
        have hself : small.filter (fun a => !(a == k)) = small :=
          List.filter_eq_self.mpr fun a ha => hnew a (h.sublist.subset ha)
        apply take_sublist_take hmoved
        · rw [hself, List.length_cons]
          omega
        · rw [List.length_cons]
          omega
    · rw [List.length_take, List.length_cons]
      omega

end Nested

variable [BEq K] [Hashable K]

/-- An index with no more places than another has followed the same requests and tracks no other keys. -/
def Inside (capacity : Nat) (r : Recency K) (capacity' : Nat) (r' : Recency K) : Prop :=
  capacity ≤ capacity' ∧ ∃ past past', r.Follows capacity past ∧ r'.Follows capacity' past' ∧
    Nested capacity (recent capacity past) (recent capacity' past')

namespace Inside
variable {capacity capacity' : Nat} {r r' : Recency K}

theorem empty (h : capacity ≤ capacity') :
    Inside capacity (.empty : Recency K) capacity' .empty := by
  refine ⟨h, [], [], .empty capacity, .empty capacity', ?_⟩
  simp only [recent, List.eraseDups_nil, List.take_nil]
  exact ⟨.refl _, fun _ => rfl⟩

variable [EquivBEq K] [LawfulHashable K]

theorem contains (h : Inside capacity r capacity' r') {k : K} (hk : r.contains k = true) :
    r'.contains k = true := by
  obtain ⟨-, past, past', hf, hf', hn⟩ := h
  rw [hf.contains_eq, List.any_eq_true] at hk
  obtain ⟨a, ha, hak⟩ := hk
  rw [hf'.contains_eq, List.any_eq_true]
  exact ⟨a, hn.sublist.subset ha, hak⟩

theorem after (h : Inside capacity r capacity' r') (request : Request K V) :
    Inside capacity (r.after capacity request) capacity' (r'.after capacity' request) := by
  have hmono : ∀ {k}, r.contains k = true → r'.contains k = true := h.contains
  obtain ⟨hle, past, past', hf, hf', hn⟩ := h
  have htouch : ∀ k, Nested capacity (recent capacity (k :: past)) (recent capacity' (k :: past')) := by
    intro k
    rw [recent_cons, recent_cons]
    exact hn.touch (distinct_recent capacity past) hle (length_recent_le capacity past)
      (length_recent_le capacity' past') k
  cases request with
  | put k v => exact ⟨hle, _, _, (hf.track k).1, (hf'.track k).1, htouch k⟩
  | get k =>
    change Inside capacity (r.touch k) capacity' (r'.touch k)
    by_cases hk : r.contains k = true
    · exact ⟨hle, _, _, hf.touch hk, hf'.touch (hmono hk), htouch k⟩
    · rw [touch_of_untracked (Bool.eq_false_iff.mpr hk)]
      by_cases hk' : r'.contains k = true
      · refine ⟨hle, _, _, hf, hf'.touch hk', ?_⟩
        rw [hf.contains_eq, Bool.not_eq_true] at hk
        rw [hf'.contains_eq] at hk'
        rw [recent_cons capacity' past']
        exact hn.touch_large (length_recent_le capacity' past') hk hk'
      · rw [touch_of_untracked (Bool.eq_false_iff.mpr hk')]
        exact ⟨hle, past, past', hf, hf', hn⟩
  | remove k => exact ⟨hle, past, past', hf, hf', hn⟩
  | size => exact ⟨hle, past, past', hf, hf', hn⟩
  | clear => exact .empty hle

end Inside
end ResultCache.Recency
