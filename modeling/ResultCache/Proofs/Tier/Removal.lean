import ResultCache.Proofs.Tier.Lifetime

/-! Entries and registrations go together. A removal takes both, so it is noticed under another key only if that key
leads to the same value without a registration of its own; and no request leaves a new entry without one. -/
namespace ResultCache.Tier.Contents
variable {K V : Type} [BEq K] [Hashable K] [EquivBEq K] [LawfulHashable K] [BEq V] [Hashable V] [LawfulBEq V]
variable {inUse : V → Bool} {c : Contents K V} {j k : K} {v : V}

private theorem isAlive_remove (h : c.isAlive inUse v = true)
    (hother : c.registered.get? k = some v → ∃ i, (k == i) = false ∧ c.registered.get? i = some v) :
    (c.drain.remove k).isAlive inUse v = true := by
  have hkept : ∀ i, (k == i) = false → c.registered.get? i = some v →
      (c.drain.remove k).registered.get? i = some v := by
    intro i hi hv
    change (c.registered.erase k).get? i = some v
    simpa [hi] using hv
  refine isAlive_iff.mpr ((isAlive_iff.mp h).imp_right fun howned => howned.imp_right ?_)
  rintro ⟨i, hv⟩
  cases hi : k == i with
  | false => exact ⟨i, hkept i hi hv⟩
  | true =>
    have hk : c.registered.get? k = some v := (Std.HashMap.getElem?_congr hi).trans hv
    obtain ⟨i', hi', hv'⟩ := hother hk
    exact ⟨i', hkept i' hi' hv'⟩

/-- What is found under another key stays the same, unless that key is not registered and leads to the value that
is registered under the removed one. -/
theorem Coherent.find_remove (h : c.Coherent inUse) (hj : (k == j) = false) :
    (c.drain.remove k).drain.find inUse j = c.drain.find inUse j ∨
      ∃ v, c.drain.find inUse j = some v ∧ c.registered.get? k = some v ∧ c.registered.get? j = none := by
  by_cases hshared : ∃ v, c.drain.find inUse j = some v ∧ c.registered.get? k = some v ∧ c.registered.get? j = none
  · exact .inr hshared
  refine .inl (Option.ext fun v => ?_)
  have hafter : (c.drain.remove k).Coherent inUse := h.run inUse inUse 0 [] (.remove k)
  rw [hafter.find_drain_iff]
  constructor
  · rintro ⟨hs, halive⟩
    exact h.find_drain_iff.mpr ⟨stored_drain (stored_remove hs).2, isAlive_of_remove halive⟩
  · intro hfind
    obtain ⟨hs, halive⟩ := h.find_drain_iff.mp hfind
    obtain ⟨handle, he, rfl⟩ := stored_eq_some.mp hs
    refine ⟨stored_eq_some.mpr ⟨handle, ?_, rfl⟩, isAlive_remove halive fun hk => ?_⟩
    · change (c.drain.entries.erase k)[j]? = some handle
      rw [Std.HashMap.getElem?_erase, hj]
      exact h.drain_keeps he halive
    · cases hr : c.registered.get? j with
      | none => exact (hshared ⟨_, hfind, hk, hr⟩).elim
      | some w =>
        refine ⟨j, hj, ?_⟩
        rw [hr, h.agree j handle w he hr]

omit [LawfulBEq V] in
theorem registered_remove (hj : (k == j) = false) : (c.drain.remove k).registered.get? j = c.registered.get? j := by
  change (c.registered.erase k).get? j = c.registered.get? j
  simp [hj]

omit [LawfulBEq V] in
/-- What is stored after a request is registered, or it was there before and its registration is as it was. -/
theorem registered_of_stored_run {pinCount : Nat} {evicted : List K} {request : Request K V}
    (hs : (c.run inUse pinCount evicted request).stored k = some v) :
    (c.run inUse pinCount evicted request).registered.get? k = some v ∨
      (∀ k' v', request = .put k' v' → (k' == k) = false) ∧ c.stored k = some v ∧
        (c.run inUse pinCount evicted request).registered.get? k = c.registered.get? k := by
  cases request with
  | put k' v' =>
    change (c.registered.insert k' v').get? k = some v ∨ _ ∧ _ ∧ (c.registered.insert k' v').get? k = _
    rw [Registry.get?_insert]
    obtain ⟨hk, rfl⟩ | ⟨hk, hold⟩ := stored_put hs
    · rw [if_pos hk]
      exact .inl rfl
    · rw [hk]
      refine .inr ⟨?_, stored_drain hold, rfl⟩
      rintro _ _ ⟨⟩
      exact hk
  | get k' =>
    refine .inr ⟨?_, stored_drain (stored_lookedUp hs), ?_⟩
    · rintro _ _ ⟨⟩
    · rw [run, registered_lookedUp]
      rfl
  | remove k' =>
    obtain ⟨hk, hold⟩ := stored_remove hs
    refine .inr ⟨?_, stored_drain hold, registered_remove hk⟩
    rintro _ _ ⟨⟩
  | size =>
    refine .inr ⟨?_, stored_drain hs, rfl⟩
    rintro _ _ ⟨⟩
  | clear =>
    obtain ⟨handle, he, -⟩ := stored_eq_some.mp hs
    rw [run, empty, Std.HashMap.getElem?_empty] at he
    cases he

end ResultCache.Tier.Contents
