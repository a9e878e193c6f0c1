import ResultCache.Proofs.Keys
import ResultCache.Proofs.Recency.History
import ResultCache.Proofs.Request

/-! Which keys a recency index tracks after a request. The index of positions alone tells, whatever the
links between the nodes are. -/
namespace ResultCache.Recency
variable {K V : Type} [BEq K] [Hashable K]

def after (capacity : Nat) (r : Recency K) : Request K V → Recency K
  | .put k _ => (r.track capacity k).2
  | .get k => r.touch k
  | .remove _ => r
  | .size => r
  | .clear => .empty

def dropped (capacity : Nat) (r : Recency K) : Request K V → Option K
  | .put k _ => (r.track capacity k).1
  | _ => none

@[simp] theorem contains_empty (k : K) : (empty : Recency K).contains k = false := Std.HashMap.contains_empty

@[simp] theorem contains_touch (r : Recency K) (t k : K) : (r.touch t).contains k = r.contains k := by
  rw [touch]
  split
  · rw [contains, index_append, index_unlink, contains]
  · rfl

variable [EquivBEq K] [LawfulHashable K]

@[simp] theorem contains_insert (r : Recency K) (t k : K) :
    (r.insert t).contains k = (t == k || r.contains k) := by
  rw [insert]
  split
  · next i hi =>
    rw [contains, index_append, index_unlink]
    cases htk : t == k with
    | true =>
      rw [Bool.true_or, ← Std.HashMap.contains_congr htk, Std.HashMap.contains_eq_isSome_getElem?, hi]
      rfl
    | false => rw [Bool.false_or, contains]
  · have hplace : (r.place t).2.index = r.index := by
      rw [place]
      split <;> rfl
    rw [contains, index_append, hplace, Std.HashMap.contains_insert, contains]

theorem contains_popEldest (r : Recency K) (k : K) :
    r.popEldest.2.contains k = (r.contains k && !r.popEldest.1.any (· == k)) := by
  rw [popEldest]
  split
  · exact (Bool.and_true _).symm
  · next i hi =>
    split
    · exact (Bool.and_true _).symm
    · next node hnode =>
      change ((r.unlink i).index.erase node.key).contains k = (r.contains k && !(node.key == k))
      rw [index_unlink, Std.HashMap.contains_erase, Bool.and_comm, contains]

/-- After a key is tracked, that key and those from before are tracked, but for the one dropped. -/
theorem contains_track (r : Recency K) (capacity : Nat) (t k : K) :
    (r.track capacity t).2.contains k =
      ((t == k || r.contains k) && !(r.track capacity t).1.any (· == k)) := by
  rw [track]
  split
  · rw [contains_popEldest, contains_insert]
  · rw [contains_insert]
    exact (Bool.and_true _).symm

/-- A key that is still tracked after a request was not dropped in it. -/
theorem not_dropped {r : Recency K} {capacity : Nat} {request : Request K V} {k : K}
    (h : (r.after capacity request).contains k = true) :
    ∀ e ∈ r.dropped capacity request, (e == k) = false := by
  intro e he
  cases request with
  | put t v =>
    change (r.track capacity t).2.contains k = true at h
    rw [contains_track, Bool.and_eq_true, Bool.not_eq_true', Option.any_eq_false] at h
    exact h.2 e he
  | _ => cases he

/-- Every request leaves an index with the recent keys of some touches. -/
theorem Follows.after {r : Recency K} {capacity : Nat} {past : List K} (h : r.Follows capacity past)
    (request : Request K V) : ∃ past', (r.after capacity request).Follows capacity past' := by
  cases request with
  | put k v => exact ⟨_, (h.track k).1⟩
  | get k =>
    change ∃ past', (r.touch k).Follows capacity past'
    by_cases hk : r.contains k = true
    · exact ⟨_, h.touch hk⟩
    · rw [touch_of_untracked (Bool.eq_false_iff.mpr hk)]
      exact ⟨past, h⟩
  | remove k => exact ⟨past, h⟩
  | size => exact ⟨past, h⟩
  | clear => exact ⟨[], .empty capacity⟩

/-- Different keys that are tracked are not more than the capacity. -/
theorem Follows.length_le {r : Recency K} {capacity : Nat} {past keys : List K}
    (h : r.Follows capacity past) (hd : keys.Pairwise fun a b => (a == b) = false)
    (hkeys : ∀ k ∈ keys, r.contains k = true) : keys.length ≤ capacity := by
  have hlisted : ∀ k ∈ keys, r.toList.contains k = true := by
    intro k hk
    have hc := hkeys k hk
    rw [h.wellFormed.contains_eq] at hc
    obtain ⟨a, ha, hak⟩ := List.any_eq_true.mp hc
    exact List.contains_iff_exists_mem_beq.mpr ⟨a, ha, BEq.symm hak⟩
  calc keys.length
    _ ≤ r.toList.length := length_le_of_contains hd hlisted
    _ = (recent capacity past).length := by rw [← h.wellFormed.size_eq, h.size_eq]
    _ ≤ capacity := length_recent_le capacity past

end ResultCache.Recency
