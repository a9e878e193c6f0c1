/-! Lists of keys that are compared by an equivalence, so that equal keys need not be the same. -/
namespace ResultCache
variable {K : Type} [BEq K] [EquivBEq K]

theorem contains_eq_false {keys : List K} {k : K} (h : ∀ e ∈ keys, (e == k) = false) :
    keys.contains k = false := by
  rw [Bool.eq_false_iff]
  intro hk
  obtain ⟨e, he, hke⟩ := List.contains_iff_exists_mem_beq.mp hk
  rw [BEq.comm, h e he] at hke
  cases hke

/-- Pairwise different keys are not more than the keys they are all among. -/
theorem length_le_of_contains {keys others : List K}
    (hd : keys.Pairwise fun a b => (a == b) = false) (h : ∀ a ∈ keys, others.contains a = true) :
    keys.length ≤ others.length := by
  induction keys generalizing others with
  | nil => exact Nat.zero_le _
  | cons a keys ih =>
    obtain ⟨ha, hd⟩ := List.pairwise_cons.mp hd
    obtain ⟨hfirst, hrest⟩ := List.forall_mem_cons.mp h
    obtain ⟨b, hb, hab⟩ := List.contains_iff_exists_mem_beq.mp hfirst
    have hshorter : (others.filter fun c => !(a == c)).length < others.length :=
      List.length_filter_lt_length_iff_exists.mpr ⟨b, hb, by simp [hab]⟩
    have hkeys : keys.length ≤ (others.filter fun c => !(a == c)).length := by
      refine ih hd fun c hc => ?_
      obtain ⟨d, hm, hcd⟩ := List.contains_iff_exists_mem_beq.mp (hrest c hc)
      refine List.contains_iff_exists_mem_beq.mpr ⟨d, List.mem_filter.mpr ⟨hm, ?_⟩, hcd⟩
      rw [← BEq.congr_right hcd, ha c hc]
      rfl
    rw [List.length_cons]
    omega

omit [EquivBEq K] in
/-- Different values are found under different keys. -/
theorem exists_distinct_keys {V : Type} {view : K → Option V}
    (hview : ∀ {k k'}, (k == k') = true → view k = view k') {values : List V} (hd : values.Nodup)
    (hvalues : ∀ v ∈ values, ∃ k, view k = some v) :
    ∃ keys : List K, keys.length = values.length ∧ (keys.Pairwise fun a b => (a == b) = false) ∧
      ∀ k ∈ keys, ∃ v ∈ values, view k = some v := by
  induction values with
  | nil => exact ⟨[], rfl, .nil, fun k hk => (List.not_mem_nil hk).elim⟩
  | cons v values ih =>
    obtain ⟨hv, hrest⟩ := List.forall_mem_cons.mp hvalues
    obtain ⟨hnew, hd⟩ := List.nodup_cons.mp hd
    obtain ⟨k, hk⟩ := hv
    obtain ⟨keys, hlength, hapart, hkeys⟩ := ih hd hrest
    refine ⟨k :: keys, congrArg (· + 1) hlength, List.pairwise_cons.mpr ⟨fun j hj => ?_, hapart⟩, ?_⟩
    · obtain ⟨w, hw, hjw⟩ := hkeys j hj
      rw [Bool.eq_false_iff]
      intro hkj
      have hsame : v = w := by simpa [hk, hjw] using hview hkj
      exact hnew (hsame ▸ hw)
    · refine List.forall_mem_cons.mpr ⟨⟨v, List.mem_cons_self, hk⟩, fun j hj => ?_⟩
      obtain ⟨w, hw, hjw⟩ := hkeys j hj
      exact ⟨w, List.mem_cons_of_mem v hw, hjw⟩

end ResultCache
