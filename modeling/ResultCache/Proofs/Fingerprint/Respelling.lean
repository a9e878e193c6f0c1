import ResultCache.Proofs.Fingerprint.Equality
import ResultCache.Proofs.Part.Members
import ResultCache.Proofs.Text.Bytes

/-! Documents that differ in spelling only have the same part. The order of an object's members is spelling, at any
depth, and so are members that a later one of their name replaces. -/
namespace ResultCache.Json
open ResultCache.Part (Counts ofJson ofItems ofMembers)

/-- The documents differ in spelling only: by steps, each within one array or object at some depth. Members are
reordered freely as long as those of one name keep their order. -/
inductive Respelled : Json → Json → Prop where
  | refl (a : Json) : Respelled a a
  | symm {a b : Json} : Respelled a b → Respelled b a
  | trans {a b c : Json} : Respelled a b → Respelled b c → Respelled a c
  | item (before after : List Json) {a b : Json} : Respelled a b →
      Respelled (.array (before ++ a :: after)) (.array (before ++ b :: after))
  | member (before after : List (String × Json)) (name : String) {a b : Json} : Respelled a b →
      Respelled (.object (before ++ (name, a) :: after)) (.object (before ++ (name, b) :: after))
  | reordered {members others : List (String × Json)} :
      (∀ name, members.filter (·.1 == name) = others.filter (·.1 == name)) →
      Respelled (.object members) (.object others)
  | overridden (before : List (String × Json)) {after : List (String × Json)} {name : String} (value : Json) :
      name ∈ after.map Prod.fst → Respelled (.object (before ++ (name, value) :: after)) (.object (before ++ after))

private theorem counts_iff {members : List (String × Json)} {name : String} {value : Json} :
    Counts members name value ↔ (members.filter (·.1 == name)).getLast? = some (name, value) := by
  rw [List.getLast?_eq_some_iff]
  constructor
  · rintro ⟨before, after, rfl, hafter⟩
    refine ⟨before.filter (·.1 == name), ?_⟩
    have hnone : after.filter (·.1 == name) = [] :=
      List.filter_eq_nil_iff.mpr fun member hmember => by rw [beq_iff_eq]; exact hafter member hmember
    rw [List.filter_append, List.filter_cons, if_pos (beq_self_eq_true name), hnone]
  · rintro ⟨front, hfilter⟩
    obtain ⟨before, rest, rfl, -, hrest⟩ := List.filter_eq_append_iff.mp hfilter
    obtain ⟨middle, after, rfl, hmiddle, -, hafter⟩ := List.filter_eq_cons_iff.mp hrest
    refine ⟨before ++ middle, after, by rw [List.append_assoc], fun member hmember => ?_⟩
    have hne := List.filter_eq_nil_iff.mp hafter member hmember
    rwa [beq_iff_eq] at hne

/-- The elements of an array are converted each by itself. -/
theorem ofItems_eq_map (items : List Json) : ofItems items = items.map ofJson := by
  induction items with
  | nil => rfl
  | cons item items ih => rw [ofItems, ih, List.map_cons]

private theorem filter_overridden {before after : List (String × Json)} {name : String} (value : Json)
    (h : name ∈ after.map Prod.fst) (n : String) :
    ((before ++ (name, value) :: after).filter (·.1 == n)).getLast? =
      ((before ++ after).filter (·.1 == n)).getLast? := by
  rw [List.filter_append, List.filter_append, List.filter_cons]
  split
  · rename_i hn
    obtain rfl : name = n := eq_of_beq hn
    obtain ⟨member, hmember, hname⟩ := List.mem_map.mp h
    have hlater : after.filter (·.1 == name) ≠ [] :=
      List.ne_nil_of_mem (List.mem_filter.mpr ⟨hmember, beq_iff_eq.mpr hname⟩)
    obtain ⟨next, rest, hcons⟩ := List.exists_cons_of_ne_nil hlater
    rw [hcons, List.getLast?_append, List.getLast?_append, List.getLast?_cons_cons]
  · rfl

/-- A respelled document has the same part. -/
theorem Respelled.ofJson_eq {a b : Json} (h : Respelled a b) : ofJson a = ofJson b := by
  induction h with
  | refl a => rfl
  | symm _ ih => exact ih.symm
  | trans _ _ ih ih' => exact ih.trans ih'
  | item before after _ ih =>
    rw [ofJson, ofJson, ofItems_eq_map, ofItems_eq_map, List.map_append, List.map_append, List.map_cons,
      List.map_cons, ih]
  | member before after name _ ih =>
    rw [ofJson, ofJson, Part.ofMembers_append, Part.ofMembers_append, ofMembers, ofMembers, ih]
  | reordered h =>
    rw [ofJson, ofJson, Part.ofMembers_congr fun name value => ?_]
    rw [counts_iff, counts_iff, h]
  | overridden before value h =>
    rw [ofJson, ofJson, Part.ofMembers_congr fun name _ => ?_]
    rw [counts_iff, counts_iff, filter_overridden value h]

/-- With one member of each name any order will do. -/
theorem Respelled.of_perm {members others : List (String × Json)} (hnames : (members.map Prod.fst).Nodup)
    (h : members.Perm others) : Respelled (.object members) (.object others) := by
  have hother : members.Pairwise (·.1 ≠ ·.1) := List.pairwise_map.mp hnames
  refine .reordered fun name => ?_
  have hname : ∀ {ms : List (String × Json)} {m}, m ∈ ms.filter (·.1 == name) → m.1 = name :=
    fun hm => beq_iff_eq.mp (List.mem_filter.mp hm).2
  refine List.Perm.eq_of_pairwise (fun a b ha hb hne => ?_) (hother.filter _)
    ((h.pairwise hother fun hne => hne.symm).filter _) (h.filter _)
  exact absurd ((hname ha).trans (hname hb).symm) hne

private theorem alike_of_parts {f g : Fingerprint} (hf : f.Reached) (hg : g.Reached)
    (h : f.parts.toList = g.parts.toList) :
    (f == g) = true ∧ f.hash = g.hash ∧ Hashable.hash f = Hashable.hash g ∧ f.canonical = g.canonical ∧
      f.json = g.json ∧ f.digest = g.digest := by
  have hparts := Array.toList_inj.mp h
  have hequal := Fingerprint.beq_of_parts hf.isMadeOfParts hg.isMadeOfParts hparts
  obtain ⟨hhash, hhashed, hcanon, hjson⟩ :=
    Fingerprint.texts_of_parts hf.isMadeOfParts hg.isMadeOfParts hparts
  exact ⟨hequal, hhash, hhashed, hcanon, hjson, congrArg Sha256.ofText hjson⟩

private theorem array_parts (items : List Json) : toPart (Json.array items) = .list (items.map toPart) := by
  change ofJson (.array items) = _
  rw [ofJson, ofItems_eq_map]
  rfl

private theorem object_entries (members : List (String × Json)) :
    ∃ entries : List (String × Part),
      toPart (Json.object members) = .list (entries.map fun entry => .list [.text entry.1, entry.2]) ∧
        entries.Pairwise (fun a b => a.1.toUTF8.data.toList < b.1.toUTF8.data.toList) ∧
        ∀ name p, (name, p) ∈ entries ↔ ∃ value, Counts members name value ∧ p = toPart value := by
  refine ⟨ofMembers [] members, ?_, ?_, fun name p => Part.mem_ofMembers⟩
  · change ofJson (.object members) = _
    rw [ofJson]
    rfl
  · exact (Part.Ascending.ofMembers .nil members).imp Text.bytes_lt_of_lt

/-- Documents are fingerprinted by value. A respelled document has the same part, and fingerprints made with the one
and with the other are equal in everything. An array becomes the list of its elements' parts, and an object the list of
its names in the order of their bytes, each paired with the part of the value written last. -/
theorem fingerprinted_by_value :
    (∀ {a b : Json}, Respelled a b → toPart a = toPart b ∧
      ∀ {f g : Fingerprint} {before after : List Part}, f.Reached → g.Reached →
        f.parts.toList = before ++ toPart a :: after → g.parts.toList = before ++ toPart b :: after →
        (f == g) = true ∧ f.hash = g.hash ∧ Hashable.hash f = Hashable.hash g ∧ f.canonical = g.canonical ∧
          f.json = g.json ∧ f.digest = g.digest) ∧
      (∀ {members others : List (String × Json)}, (members.map Prod.fst).Nodup → members.Perm others →
        Respelled (.object members) (.object others)) ∧
      (∀ items : List Json, toPart (Json.array items) = .list (items.map toPart)) ∧
      ∀ members : List (String × Json), ∃ entries : List (String × Part),
        toPart (Json.object members) = .list (entries.map fun entry => .list [.text entry.1, entry.2]) ∧
          entries.Pairwise (fun a b => a.1.toUTF8.data.toList < b.1.toUTF8.data.toList) ∧
          ∀ name p, (name, p) ∈ entries ↔ ∃ value, Counts members name value ∧ p = toPart value := by
  refine ⟨fun {a b} h => ?_, fun hnames h => .of_perm hnames h, array_parts, object_entries⟩
  have hpart : toPart a = toPart b := h.ofJson_eq
  refine ⟨hpart, fun {f g before after} hf hg hfa hgb => alike_of_parts hf hg ?_⟩
  rw [hfa, hgb, hpart]

/-- Two members change places, and within one of them a value that is replaced later is left out. -/
theorem fingerprinted_by_value_nested :
    let inner := Json.object [("x", .null), ("y", .bool false)]
    let outer := Json.object [("y", .bool true), ("x", .null), ("y", .bool false)]
    let a := Json.object [("b", .number (.whole 1)), ("a", outer)]
    let b := Json.object [("a", inner), ("b", .number (.whole 1))]
    Respelled a b ∧ (Fingerprint.ofParts [toPart a] == Fingerprint.ofParts [toPart b]) = true := by
  intro inner outer a b
  have hinner : Respelled outer inner :=
    .overridden [] (.bool true) (by decide)
  have hswap : Respelled (.object [("b", .number (.whole 1)), ("a", inner)]) b :=
    fingerprinted_by_value.2.1 (by decide) (List.Perm.swap _ _ _)
  have h : Respelled a b := (Respelled.member [("b", .number (.whole 1))] [] "a" hinner).trans hswap
  obtain ⟨-, halike⟩ := fingerprinted_by_value.1 h
  exact ⟨h, (@halike _ _ [] [] (.ofParts _) (.ofParts _) (Fingerprint.parts_ofParts _)
    (Fingerprint.parts_ofParts _)).1⟩

end ResultCache.Json
