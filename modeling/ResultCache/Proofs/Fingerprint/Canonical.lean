import ResultCache.Proofs.Fingerprint.Totals
import ResultCache.Proofs.Part.Canonical

/-! What the digest of a fingerprint is made from. The canonical text keeps the totals and, of each part, all but
which number a float was that is none. So it stands for the fingerprint as long as all floats are finite. -/
namespace ResultCache.Fingerprint

private theorem member_unique {name : String} {m n : Int} {rest rest' : List Char}
    (h : Json.memberText name (Text.integer m) ++ ',' :: rest = Json.memberText name (Text.integer n) ++ ',' :: rest') :
    m = n ∧ rest = rest' := by
  rw [Json.memberText, Json.memberText, List.append_assoc, List.append_assoc] at h
  have hvalue := (List.cons.inj (List.append_cancel_left h)).2
  obtain ⟨hmn, hrests⟩ := Json.integer_legible m n _ _ (Json.delimited_comma _) (Json.delimited_comma _) hvalue
  exact ⟨hmn, (List.cons.inj hrests).2⟩

private theorem canonical_eq_members (f : Fingerprint) : f.canonical =
    '{' :: (Json.memberText "multiplier" (Text.integer multiplier.toInt) ++
      ',' :: (Json.memberText "hashcode" (Text.integer f.hash.toInt) ++
      ',' :: (Json.memberText "checksum" (Text.integer f.checksum.toInt) ++
      ',' :: (Json.memberText "count" (Text.integer f.count.toInt) ++
      ',' :: (Json.memberText "history" (Json.arrayText (f.parts.toList.map Part.canonical)) ++ ['}']))))) := by
  simp only [canonical, Json.objectText, Json.separated, List.flatMap_cons, List.flatMap_nil, List.append_nil,
    List.append_assoc, List.cons_append]

/-- The canonical text shows the totals, and the parts as far as their own texts show them. -/
theorem canonical_eq_iff {f g : Fingerprint} : f.canonical = g.canonical ↔
    f.hash = g.hash ∧ f.checksum = g.checksum ∧ f.count = g.count ∧
      f.parts.toList.map Part.blurred = g.parts.toList.map Part.blurred := by
  constructor
  · intro h
    rw [canonical_eq_members, canonical_eq_members] at h
    obtain ⟨-, h⟩ := member_unique (List.cons.inj h).2
    obtain ⟨hhash, h⟩ := member_unique h
    obtain ⟨hchecksum, h⟩ := member_unique h
    obtain ⟨hcount, h⟩ := member_unique h
    rw [Json.memberText, Json.memberText, List.append_assoc, List.append_assoc] at h
    have hitems := (List.cons.inj (List.append_cancel_left h)).2
    have hparts := Json.arrayText_unique Part.canonical_start
      (fun p _ q rest rest' _ _ => Part.canonical_unique) hitems
    exact ⟨Int32.toInt_inj.mp hhash, Int64.toInt_inj.mp hchecksum, Int32.toInt_inj.mp hcount, hparts.1⟩
  · rintro ⟨hhash, hchecksum, hcount, hparts⟩
    have hitems (f : Fingerprint) : f.parts.toList.map Part.canonical =
        (f.parts.toList.map Part.blurred).map Part.canonical := by
      rw [List.map_map]
      exact List.map_congr_left fun p _ => p.canonical_blurred.symm
    rw [canonical, canonical, hhash, hchecksum, hcount, hitems f, hitems g, hparts]

/-- The bytes under the digest are those of the canonical text. -/
theorem toUTF8_json_eq_iff {f g : Fingerprint} : f.json.toUTF8 = g.json.toUTF8 ↔ f.canonical = g.canonical :=
  String.toByteArray_inj.trans String.ofList_inj

theorem map_blurred_of_finite {parts : List Part} (h : ∀ p ∈ parts, p.isFinite = true) :
    parts.map Part.blurred = parts :=
  (List.map_congr_left fun p hp => p.blurred_of_finite (h p hp)).trans (List.map_id parts)

/-- Fingerprints whose floats are finite at every depth have the same bytes under the digest only if their parts
are the same. They are equal then, as long as their counts still tell their lengths. -/
theorem json_injective {f g : Fingerprint} (hf : ∀ p ∈ f.parts, p.isFinite = true)
    (hg : ∀ p ∈ g.parts, p.isFinite = true) (h : f.json.toUTF8 = g.json.toUTF8) :
    f.parts = g.parts ∧ (f.Proper → g.Proper → (f == g) = true) := by
  obtain ⟨-, -, -, hblurred⟩ := canonical_eq_iff.mp (toUTF8_json_eq_iff.mp h)
  rw [map_blurred_of_finite fun p hp => hf p (Array.mem_def.mpr hp),
    map_blurred_of_finite fun p hp => hg p (Array.mem_def.mpr hp)] at hblurred
  have hparts := Array.toList_inj.mp hblurred
  exact ⟨hparts, fun hf hg => (hf.beq_iff hg).mpr hparts⟩

/-- One tenth, a list with the negative zero and a text with a quote and a backslash, and bytes: given at once
and one by one they have the same bytes under the digest. -/
theorem parts_eq_of_json_one_by_one :
    let parts := [Part.float ⟨0x3FB999999999999A⟩, .list [.float ⟨0x8000000000000000⟩, .text "\"\\"], .bytes [0, 255]]
    let f := ofParts parts
    let g := (empty.attempt (·.updateAll (parts.take 1))).attempt (·.updateAll (parts.drop 1))
    f.parts = g.parts ∧ (f == g) = true := by
  intro parts f g
  have hparts : g.parts.toList = parts := rfl
  have hfinite : ∀ p ∈ parts, p.isFinite = true := by decide
  have hf : ∀ p ∈ f.parts, p.isFinite = true := fun p hp => hfinite p (Array.mem_def.mp hp)
  have hg : ∀ p ∈ g.parts, p.isFinite = true := fun p hp => hfinite p (Array.mem_def.mp hp)
  have hjson : f.json.toUTF8 = g.json.toUTF8 := rfl
  obtain ⟨hsame, hequal⟩ := json_injective hf hg hjson
  exact ⟨hsame, hequal ⟨.ofParts _, by decide⟩ ⟨.updateAll _ (.updateAll _ .empty), by decide⟩⟩

/-- A part that differs alone shows in the checksum, unless it has the weight of the other. -/
theorem weight_eq_of_checksum {f g : Fingerprint} (hf : f.Proper) (hg : g.Proper) {before after : List Part} {p q : Part}
    (hfparts : f.parts.toList = before ++ p :: after) (hgparts : g.parts.toList = before ++ q :: after)
    (h : f.checksum = g.checksum) : p.weight = q.weight := by
  have hbound : UInt32.size = 2 ^ 32 := rfl
  have hsum := congrArg Int64.toInt h
  rw [hf.reached.isMadeOfParts.toInt_checksum (hbound ▸ hf.short.le),
    hg.reached.isMadeOfParts.toInt_checksum (hbound ▸ hg.short.le), hfparts, hgparts] at hsum
  simp only [weights, List.map_append, List.map_cons, List.sum_append, List.sum_cons] at hsum
  exact Int32.toInt_inj.mp (by omega)

/-- Which infinity or NaN a float is shows in the hash and the checksum alone. So two fingerprints have the same bytes
under the digest exactly if these agree and the parts differ in nothing else. Then such floats stand in the same
parts of both, and a part that differs alone has the weight of the other. -/
theorem json_eq_iff {f g : Fingerprint} (hf : f.Proper) (hg : g.Proper) :
    (f.json.toUTF8 = g.json.toUTF8 ↔ f.hash = g.hash ∧ f.checksum = g.checksum ∧
      f.parts.toList.map Part.blurred = g.parts.toList.map Part.blurred) ∧
    (f.json.toUTF8 = g.json.toUTF8 → f.parts.toList.map Part.isFinite = g.parts.toList.map Part.isFinite) ∧
    (∀ before after p q, f.parts.toList = before ++ p :: after → g.parts.toList = before ++ q :: after →
      f.json.toUTF8 = g.json.toUTF8 → p.weight = q.weight) := by
  have hiff : f.json.toUTF8 = g.json.toUTF8 ↔ f.hash = g.hash ∧ f.checksum = g.checksum ∧
      f.parts.toList.map Part.blurred = g.parts.toList.map Part.blurred := by
    rw [toUTF8_json_eq_iff, canonical_eq_iff]
    refine ⟨fun ⟨hhash, hchecksum, _, hparts⟩ => ⟨hhash, hchecksum, hparts⟩,
      fun ⟨hhash, hchecksum, hparts⟩ => ⟨hhash, hchecksum, ?_, hparts⟩⟩
    have hlength := congrArg List.length hparts
    rw [List.length_map, List.length_map, Array.length_toList, Array.length_toList] at hlength
    rw [hf.reached.isMadeOfParts.count_eq, hg.reached.isMadeOfParts.count_eq, hlength]
  refine ⟨hiff, fun hjson => ?_, fun before after p q hfparts hgparts hjson => ?_⟩
  · have hfinite (parts : List Part) : parts.map Part.isFinite = (parts.map Part.blurred).map Part.isFinite := by
      rw [List.map_map]
      exact List.map_congr_left fun p _ => p.isFinite_blurred.symm
    rw [hfinite, hfinite g.parts.toList, (hiff.mp hjson).2.2]
  · exact weight_eq_of_checksum hf hg hfparts hgparts (hiff.mp hjson).2.1

/-- Infinity in place of the negative infinity, in the middle of three parts, shows. -/
theorem json_ne_of_infinity :
    let f := ofParts [.null, .float ⟨0x7FF0000000000000⟩, .text "a"]
    let g := ofParts [.null, .float ⟨0xFFF0000000000000⟩, .text "a"]
    f.json.toUTF8 ≠ g.json.toUTF8 := by
  intro f g hjson
  have hf : f.Proper := ⟨.ofParts _, by decide⟩
  have hg : g.Proper := ⟨.ofParts _, by decide⟩
  obtain ⟨-, -, hweight⟩ := json_eq_iff hf hg
  exact absurd (hweight [.null] [.text "a"] _ _ rfl rfl hjson) (by decide)

/-- Both infinities in one list, in either order. Their hash codes are half the range of a word apart, so the swap
changes the hash of the list by thirty times that, which is nothing: unequal fingerprints with one digest. -/
theorem digest_of_swapped_infinities :
    let f := ofParts [.list [.float ⟨0x7FF0000000000000⟩, .float ⟨0xFFF0000000000000⟩]]
    let g := ofParts [.list [.float ⟨0xFFF0000000000000⟩, .float ⟨0x7FF0000000000000⟩]]
    f.Proper ∧ g.Proper ∧ (f == g) = false ∧ (∃ p ∈ f.parts, p.isFinite = false) ∧
      f.json.toUTF8 = g.json.toUTF8 ∧ f.digest = g.digest := by
  intro f g
  have hcanonical : f.canonical = g.canonical :=
    canonical_eq_iff.mpr ⟨by decide, by decide, rfl, by decide⟩
  have hjson := toUTF8_json_eq_iff.mpr hcanonical
  have hinfinite : ∃ p ∈ f.parts, p.isFinite = false := ⟨_, Array.mem_def.mpr List.mem_cons_self, by decide⟩
  refine ⟨⟨.ofParts _, by decide⟩, ⟨.ofParts _, by decide⟩, by decide, hinfinite, hjson, ?_⟩
  exact congrArg Sha256.ofText (String.toByteArray_inj.mp hjson)

end ResultCache.Fingerprint
