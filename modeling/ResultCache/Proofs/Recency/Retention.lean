import ResultCache.Proofs.Recency.Membership

/-! How long a recency index keeps a key. Only keys touched since the key itself was touched can be
newer, so it stays as long as these are fewer than the capacity. -/
namespace ResultCache.Recency
variable {K : Type} [BEq K] {capacity : Nat} {k t : K} {others past : List K}

/-- A key is among the recent ones, and the newer ones are among some others. -/
def Within (k : K) (others recent : List K) : Prop :=
  ∃ newer c older, recent = newer ++ c :: older ∧ (c == k) = true ∧ ∀ a ∈ newer, others.contains a = true

theorem Within.any {recent : List K} (h : Within k others recent) : recent.any (· == k) = true := by
  obtain ⟨newer, c, older, rfl, hc, -⟩ := h
  exact List.any_eq_true.mpr ⟨c, List.mem_append_right _ List.mem_cons_self, hc⟩

variable [EquivBEq K]

theorem contains_eraseDups (keys : List K) (k : K) : keys.eraseDups.contains k = keys.contains k := by
  induction keys using eraseDups_induction with
  | nil => rfl
  | cons a keys ih =>
    rw [List.eraseDups_cons, List.contains_cons, List.contains_cons, ih]
    cases hka : k == a with
    | true => rfl
    | false =>
      rw [Bool.false_or, Bool.false_or, Bool.eq_iff_iff, List.contains_iff_exists_mem_beq,
        List.contains_iff_exists_mem_beq]
      constructor
      · rintro ⟨b, hb, hkb⟩
        exact ⟨b, (List.mem_filter.mp hb).1, hkb⟩
      · rintro ⟨b, hb, hkb⟩
        refine ⟨b, List.mem_filter.mpr ⟨hb, ?_⟩, hkb⟩
        rw [← BEq.congr_left hkb, hka]
        rfl

theorem Within.of_touch (hfew : others.length < capacity) (ht : (t == k) = true) :
    Within k others (recent capacity (t :: past)) := by
  obtain ⟨n, rfl⟩ : ∃ n, capacity = n + 1 := ⟨capacity - 1, by omega⟩
  rw [recent_cons, List.take_succ_cons]
  exact ⟨[], t, _, rfl, ht, fun a ha => (List.not_mem_nil ha).elim⟩

/-- Touching the key itself or one of the others leaves the key recent. -/
theorem Within.cons (hfew : others.length < capacity) (h : Within k others (recent capacity past))
    (ht : (t == k) = true ∨ others.contains t = true) :
    Within k others (recent capacity (t :: past)) := by
  by_cases htk : (t == k) = true
  · exact .of_touch hfew htk
  · have ht' := ht.resolve_left htk
    obtain ⟨newer, c, older, hr, hc, hnewer⟩ := h
    have hdistinct := distinct_cons_recent capacity past t
    have hct : (c == t) = false := by
      rw [BEq.congr_left hc, BEq.comm]
      exact Bool.eq_false_iff.mpr htk
    rw [recent_cons]
    rw [hr, List.filter_append, List.filter_cons_of_pos (by simp [hct]), ← List.cons_append] at hdistinct ⊢
    have hamong : ∀ a ∈ t :: newer.filter fun a => !(a == t), others.contains a = true :=
      List.forall_mem_cons.mpr ⟨ht', fun a ha => hnewer a (List.mem_filter.mp ha).1⟩
    -- all newer keys are among the others, so there is a place left for the key
    have hplace := length_le_of_contains (List.pairwise_append.mp hdistinct).1 hamong
    obtain ⟨n, hn⟩ : ∃ n, capacity = (t :: newer.filter fun a => !(a == t)).length + (n + 1) :=
      ⟨capacity - (t :: newer.filter fun a => !(a == t)).length - 1, by omega⟩
    rw [hn, List.take_length_add_append, List.take_succ_cons]
    exact ⟨_, c, _, rfl, hc, hamong⟩

section
variable [Hashable K] {r : Recency K}

/-- An index that has room for some others beside one key. -/
def Ready (others : List K) (capacity : Nat) (r : Recency K) : Prop :=
  others.length < capacity ∧ ∃ past, r.Follows capacity past

/-- An index has room for the others beside a key, tracks the key, and tracks no newer key but others. -/
def Guards (k : K) (others : List K) (capacity : Nat) (r : Recency K) : Prop :=
  others.length < capacity ∧ ∃ past, r.Follows capacity past ∧ Within k others (recent capacity past)

omit [EquivBEq K] in
theorem Ready.empty (hfew : others.length < capacity) : Ready others capacity (.empty : Recency K) :=
  ⟨hfew, [], .empty capacity⟩

variable [LawfulHashable K]

private theorem not_evicted {past : List K} (h : r.Follows capacity past) (t : K)
    (hw : Within k others (recent capacity (t :: past))) :
    ∀ e ∈ (r.track capacity t).1, (e == k) = false := by
  intro e he
  have halike := (h.track t).2
  rw [Option.mem_def.mp he, Option.toList_some] at halike
  -- the key that leaves stands for one that is recent no longer
  obtain ⟨a, rest, hea, -, hleaving⟩ := List.forall₂_cons_left_iff.mp halike
  have ha : a ∈ leaving capacity past t := by
    rw [hleaving]
    exact List.mem_cons_self
  have hgone := (List.mem_filter.mp ha).2
  rw [Bool.eq_false_iff]
  intro hek
  have hak : (a == k) = true := by
    rw [← BEq.congr_left hea]
    exact hek
  simp only [BEq.congr_right hak, hw.any] at hgone
  cases hgone

theorem Ready.track (h : Ready others capacity r) (t : K) : Ready others capacity (r.track capacity t).2 := by
  obtain ⟨hfew, past, hf⟩ := h
  exact ⟨hfew, _, (hf.track t).1⟩

theorem Ready.touch (h : Ready others capacity r) (t : K) : Ready others capacity (r.touch t) := by
  obtain ⟨hfew, past, hf⟩ := h
  by_cases ht : r.contains t = true
  · exact ⟨hfew, _, hf.touch ht⟩
  · rw [touch_of_untracked (Bool.eq_false_iff.mpr ht)]
    exact ⟨hfew, past, hf⟩

/-- Whatever an index has tracked before, it guards a key that it tracks now. -/
theorem Ready.guards (h : Ready others capacity r) (k : K) :
    Guards k others capacity (r.track capacity k).2 ∧ ∀ e ∈ (r.track capacity k).1, (e == k) = false := by
  obtain ⟨hfew, past, hf⟩ := h
  have hw : Within k others (recent capacity (k :: past)) := .of_touch hfew BEq.rfl
  exact ⟨⟨hfew, _, (hf.track k).1, hw⟩, not_evicted hf k hw⟩

theorem Guards.track (h : Guards k others capacity r) (ht : (t == k) = true ∨ others.contains t = true) :
    Guards k others capacity (r.track capacity t).2 ∧ ∀ e ∈ (r.track capacity t).1, (e == k) = false := by
  obtain ⟨hfew, past, hf, hw⟩ := h
  have hw' := hw.cons hfew ht
  exact ⟨⟨hfew, _, (hf.track t).1, hw'⟩, not_evicted hf t hw'⟩

theorem Guards.touch (h : Guards k others capacity r) (ht : (t == k) = true ∨ others.contains t = true) :
    Guards k others capacity (r.touch t) := by
  obtain ⟨hfew, past, hf, hw⟩ := h
  by_cases hc : r.contains t = true
  · exact ⟨hfew, _, hf.touch hc, hw.cons hfew ht⟩
  · rw [touch_of_untracked (Bool.eq_false_iff.mpr hc)]
    exact ⟨hfew, past, hf, hw⟩

end
end ResultCache.Recency
