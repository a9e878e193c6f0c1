import ResultCache.Fingerprint.Text
import ResultCache.Proofs.Fingerprint.History

/-! Equality of fingerprints is equality of their histories, as long as the count of the parts has
not come round. -/
namespace ResultCache.Fingerprint

/-- A fingerprint that a program can have, with a count that still tells its length. -/
structure Proper (f : Fingerprint) : Prop where
  reached : Reached f
  short : f.parts.size < UInt32.size

private theorem eq_of_all_zip {ps qs : List Part} (hl : ps.length = qs.length)
    (h : (ps.zip qs).all (fun pair => pair.1 == pair.2) = true) : ps = qs := by
  induction ps generalizing qs with
  | nil => exact (List.eq_nil_of_length_eq_zero hl.symm).symm
  | cons p ps ih =>
    cases qs with
    | nil => cases hl
    | cons q qs =>
      rw [List.zip_cons_cons, List.all_cons, Bool.and_eq_true] at h
      exact congrArg₂ List.cons (eq_of_beq h.1) (ih (Nat.succ.inj hl) h.2)

private theorem all_zip_self (ps : List Part) :
    (ps.zip ps).all (fun pair => pair.1 == pair.2) = true := by
  induction ps with
  | nil => rfl
  | cons p ps ih => rw [List.zip_cons_cons, List.all_cons, ih, BEq.rfl, Bool.and_self]

private theorem size_eq_of_count {f g : Fingerprint} (hf : f.Proper) (hg : g.Proper)
    (h : f.count = g.count) : f.parts.size = g.parts.size := by
  rw [hf.reached.isMadeOfParts.count_eq, hg.reached.isMadeOfParts.count_eq] at h
  have hb := congrArg (fun n : Int32 => n.toBitVec.toNat) h
  have hfs := hf.short
  have hgs := hg.short
  have hbound : UInt32.size = 2 ^ 32 := rfl
  simp at hb
  omega

/-- Fingerprints with the same parts differ at most in whether they may change. -/
theorem eq_of_parts {f g : Fingerprint} (hf : f.IsMadeOfParts) (hg : g.IsMadeOfParts)
    (h : f.parts = g.parts) : f = { g with isImmutable := f.isImmutable } := by
  calc f = { ofParts f.parts.toList with isImmutable := f.isImmutable } := hf
    _ = { ofParts g.parts.toList with isImmutable := f.isImmutable } := by rw [h]
    _ = { g with isImmutable := f.isImmutable } :=
      (congrArg (fun g : Fingerprint => { g with isImmutable := f.isImmutable }) hg).symm

/-- Equal parts have equal hashes and checksums, so comparing these first loses nothing. -/
theorem beq_of_parts {f g : Fingerprint} (hf : f.IsMadeOfParts) (hg : g.IsMadeOfParts)
    (h : f.parts = g.parts) : (f == g) = true := by
  change same f g = true
  rw [same, Bool.and_eq_true, Bool.and_eq_true, Bool.and_eq_true]
  have he := eq_of_parts hf hg h
  rw [congrArg hash he, congrArg checksum he, congrArg count he, h]
  exact ⟨⟨⟨BEq.rfl, BEq.rfl⟩, BEq.rfl⟩, all_zip_self _⟩

/-- Equal parts have one hash and the same texts. -/
theorem texts_of_parts {f g : Fingerprint} (hf : f.IsMadeOfParts) (hg : g.IsMadeOfParts) (h : f.parts = g.parts) :
    f.hash = g.hash ∧ Hashable.hash f = Hashable.hash g ∧ f.canonical = g.canonical ∧ f.json = g.json := by
  have he := eq_of_parts hf hg h
  have hhash := congrArg hash he
  have hcanon := congrArg canonical he
  exact ⟨hhash, congrArg (fun n : Int32 => n.toUInt32.toUInt64) hhash, hcanon, congrArg String.ofList hcanon⟩

theorem Proper.beq_iff {f g : Fingerprint} (hf : f.Proper) (hg : g.Proper) :
    (f == g) = true ↔ f.parts = g.parts := by
  constructor
  · intro h
    change same f g = true at h
    rw [same, Bool.and_eq_true, Bool.and_eq_true, Bool.and_eq_true] at h
    obtain ⟨⟨_, hcount⟩, hparts⟩ := h
    have hsize := size_eq_of_count hf hg (eq_of_beq hcount)
    exact Array.toList_inj.mp (eq_of_all_zip hsize hparts)
  · exact beq_of_parts hf.reached.isMadeOfParts hg.reached.isMadeOfParts

/-- Two fingerprints are equal exactly if they were given the same parts in the same order. Parts
are the same if they have the same form and content at every depth; floats count by their bits. So
this is an equivalence, and equal fingerprints have one hash and one canonical text. -/
theorem beq_exact {f g h : Fingerprint} (hf : f.Proper) (hg : g.Proper) (hh : h.Proper) :
    ((f == g) = true ↔ f.parts = g.parts) ∧
      (∀ ps qs, f.Given ps → g.Given qs → ((f == g) = true ↔ ps = qs)) ∧
      (f == f) = true ∧ ((f == g) = true → (g == f) = true) ∧
      ((f == g) = true → (g == h) = true → (f == h) = true) ∧
      ((f == g) = true → f.hash = g.hash ∧ Hashable.hash f = Hashable.hash g ∧
        f.canonical = g.canonical ∧ f.json = g.json) := by
  refine ⟨hf.beq_iff hg, fun ps qs hps hqs => ?_, (hf.beq_iff hf).mpr rfl, ?_, ?_, ?_⟩
  · rw [hf.beq_iff hg, ← Array.toList_inj, hps.parts_eq, hqs.parts_eq]
  · intro hfg
    exact (hg.beq_iff hf).mpr ((hf.beq_iff hg).mp hfg).symm
  · intro hfg hgh
    exact (hf.beq_iff hh).mpr (((hf.beq_iff hg).mp hfg).trans ((hg.beq_iff hh).mp hgh))
  · intro hfg
    exact texts_of_parts hf.reached.isMadeOfParts hg.reached.isMadeOfParts ((hf.beq_iff hg).mp hfg)

/-- Parts given at once and one by one, a null between two integers, make equal fingerprints. A
fingerprint that refused its only part stays apart from both. -/
theorem beq_of_parts_one_by_one :
    let f := ofParts [.int 1, .null, .int 2]
    let g := ((empty.attempt (·.update (.int 1))).attempt (·.update .null)).attempt (·.updateAll [.int 2])
    let h := (null.attempt (·.update (.int 1)))
    (f.Proper ∧ g.Proper ∧ h.Proper) ∧ (f == g) = true ∧ f.canonical = g.canonical ∧ (f == h) = false := by
  intro f g h
  have hf : f.Proper := ⟨.ofParts _, by decide⟩
  have hg : g.Proper := ⟨.updateAll _ (.update _ (.update _ .empty)), by decide⟩
  have hh : h.Proper := ⟨.update _ .null, by decide⟩
  obtain ⟨-, hgiven, -, -, -, htexts⟩ := beq_exact hf hg hh
  have hfg : (f == g) = true :=
    (hgiven _ _ (.ofParts _) (.updateAll (.update (.update .empty rfl) rfl) rfl)).mpr rfl
  refine ⟨⟨hf, hg, hh⟩, hfg, (htexts hfg).2.2.1, ?_⟩
  have hne : f.parts ≠ h.parts := fun he => absurd (congrArg Array.size he) (by decide)
  exact Bool.eq_false_iff.mpr fun hfh => hne ((beq_exact hf hh hg).1.mp hfh)

end ResultCache.Fingerprint
