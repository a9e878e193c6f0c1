import ResultCache.Config.FromJson
import ResultCache.Config.FromYaml
import ResultCache.Proofs.Config.Validity
import ResultCache.Proofs.Json.Numeral

/-! Configurations that are written as JSON and read again. Reading gives back each piece that was written, so
no field and no setting of a layer falls back to its default value. -/
namespace ResultCache.Config

open Json (Delimited Reader)
open Json.Reader

def Layer.kind : Layer → Kind
  | lru _ => .lru
  | weak _ => .weak

def Layer.amount : Layer → UInt64
  | lru capacity => capacity
  | weak pinCount => pinCount

def Kind.name : Kind → String
  | lru => "lru"
  | weak => "weak"

theorem Kind.ofName?_name (kind : Kind) : ofName? kind.name = some kind := by
  cases kind <;> rfl

theorem Kind.setting_ne_type (kind : Kind) : kind.setting ≠ "type" := by
  cases kind <;> decide

theorem Layer.layer_amount (l : Layer) : l.kind.layer (some l.amount) = l := by
  cases l <;> rfl

/-- Both kinds of layers are written in one form. -/
theorem Layer.canonical_append (l : Layer) (rest : List Char) : l.canonical ++ rest =
    '{' :: (Json.quote "type" ++ ':' :: (Json.quote l.kind.name ++ ',' :: (Json.quote l.kind.setting ++
      ':' :: (Text.natural l.amount.toNat ++ '}' :: rest)))) := by
  cases l <;> simp only [canonical, kind, amount, Kind.name, Kind.setting, Json.objectText, Json.memberText,
    Json.separated, List.flatMap_cons, List.flatMap_nil, List.append_nil, List.append_assoc, List.cons_append,
    List.nil_append]

namespace FromJson

theorem text_yields (expected s : String) (rest : List Char) :
    (text expected).Yields (Json.quote s ++ rest) s rest := by
  rw [Json.quote, List.append_assoc]
  exact (peekSolid_yields rfl _).bind ((advance_yields _ _).bind (string_yields false s rest))

theorem flag_yields (b : Bool) (rest : List Char) : flag.Yields (Json.boolText b ++ rest) b rest := by
  cases b with
  | true => exact (peekSolid_yields rfl _).bind ((expect_yields ['t', 'r', 'u', 'e'] rest).bind (.of_pure true rest))
  | false =>
    exact (peekSolid_yields rfl _).bind ((expect_yields ['f', 'a', 'l', 's', 'e'] rest).bind (.of_pure false rest))

theorem kind_yields (k : Kind) (rest : List Char) : kind.Yields (Json.quote k.name ++ rest) k rest := by
  refine (text_yields _ k.name rest).bind ?_
  rw [Kind.ofName?_name]
  exact .of_pure k rest

theorem count_toNat (n : UInt64) : count (.number (.whole n.toNat)) = .ok n := by
  rw [count, if_neg (Int.not_lt.mpr (Int.natCast_nonneg _)), Int.toNat_natCast, UInt64.ofNat_toNat]

theorem layerOfMembers_amount (l : Layer) :
    layerOfMembers l.kind [(l.kind.setting, .number (.whole l.amount.toNat))] = .ok l := by
  have hsetting : settingOf l.kind.setting none [(l.kind.setting, .number (.whole l.amount.toNat))] =
      .ok (some l.amount) := by
    rw [settingOf, if_pos rfl, count_toNat]
    rfl
  rw [layerOfMembers, hsetting]
  exact congrArg Except.ok l.layer_amount

theorem layerMembers_yields (l : Layer) {steps : Nat} (h : 2 ≤ steps) (rest : List Char) :
    (layerMembers steps none).Yields (Json.quote "type" ++ ':' :: (Json.quote l.kind.name ++
      ',' :: (Json.quote l.kind.setting ++ ':' :: (Text.natural l.amount.toNat ++ '}' :: rest))))
      (some l.kind, [(l.kind.setting, .number (.whole l.amount.toNat))]) rest := by
  obtain ⟨steps, rfl⟩ := Nat.exists_eq_add_of_le' h
  have hvalue : (value layerDepth).Yields (Text.natural l.amount.toNat ++ '}' :: rest)
      (.number (.whole l.amount.toNat)) ('}' :: rest) := by
    have hlow : -0x8000000000000000 ≤ (l.amount.toNat : Int) := by omega
    have hhigh : (l.amount.toNat : Int) < 0x10000000000000000 := by
      have := l.amount.toNat_lt
      omega
    rw [← Text.integer_natCast]
    exact value_yields hlow hhigh layerDepth ⟨'}', rest, rfl, .inr (.inr rfl)⟩
  have hsecond : (layerMembers (steps + 1) (some l.kind)).Yields (Json.quote l.kind.setting ++
      ':' :: (Text.natural l.amount.toNat ++ '}' :: rest))
      (some l.kind, [(l.kind.setting, .number (.whole l.amount.toNat))]) rest := by
    refine (key_yields false l.kind.setting _).bind ?_
    rw [if_neg l.kind.setting_ne_type]
    refine (colon_yields _).bind (hvalue.bind ?_)
    refine (another_yields_false (by decide) rfl rest).bind ?_
    exact .of_pure _ rest
  refine (key_yields false "type" _).bind ?_
  rw [if_pos rfl]
  refine (colon_yields _).bind ((kind_yields l.kind _).bind ?_)
  refine (another_yields_true _ _).bind ?_
  exact hsecond

theorem layer_yields (l : Layer) (rest : List Char) : layer.Yields (l.canonical ++ rest) l rest := by
  rw [l.canonical_append]
  refine (peekSolid_yields rfl _).bind ((advance_yields _ _).bind ?_)
  refine (closes_yields_false (by decide) rfl _).bind ?_
  rw [if_neg Bool.false_ne_true]
  refine .of_enoughSteps fun steps hsteps => ?_
  have htwo : 2 ≤ steps := by
    simp only [List.length_cons] at hsteps
    omega
  refine (layerMembers_yields l htwo rest).bind ?_
  dsimp only
  rw [layerOfMembers_amount]
  exact .of_pure l rest

theorem moreLayers_yields (l : Layer) (ls : List Layer) {steps : Nat} (h : ls.length < steps) (rest : List Char) :
    (moreLayers steps).Yields (l.canonical ++ ((ls.map Layer.canonical).flatMap (',' :: ·) ++ ']' :: rest))
      (l :: ls) rest := by
  induction ls generalizing l steps with
  | nil =>
    obtain ⟨steps, rfl⟩ := Nat.exists_eq_add_one_of_ne_zero (Nat.ne_of_gt h)
    refine (layer_yields l _).bind ((another_yields_false (by decide) rfl rest).bind ?_)
    exact .of_pure [l] rest
  | cons l' ls ih =>
    obtain ⟨steps, rfl⟩ := Nat.exists_eq_add_one_of_ne_zero (Nat.ne_of_gt (Nat.zero_lt_of_lt h))
    rw [List.map_cons, List.flatMap_cons, List.append_assoc]
    refine (layer_yields l _).bind ((another_yields_true _ _).bind ?_)
    exact (ih l' (Nat.lt_of_succ_lt_succ h)).bind (.of_pure (l :: l' :: ls) rest)

private theorem length_le_flatMap_comma (texts : List (List Char)) :
    texts.length ≤ (texts.flatMap (',' :: ·)).length := by
  induction texts with
  | nil => exact Nat.le_refl 0
  | cons text texts ih =>
    rw [List.flatMap_cons, List.length_append, List.length_cons, List.length_cons]
    omega

theorem layers_yields (ls : List Layer) (rest : List Char) :
    layers.Yields (Json.arrayText (ls.map Layer.canonical) ++ rest) ls rest := by
  cases ls with
  | nil =>
    exact (peekSolid_yields rfl _).bind ((advance_yields _ _).bind
      ((closes_yields_true rfl rest).bind (.of_pure [] rest)))
  | cons l ls =>
    have htext : Json.arrayText ((l :: ls).map Layer.canonical) ++ rest =
        '[' :: (l.canonical ++ ((ls.map Layer.canonical).flatMap (',' :: ·) ++ ']' :: rest)) := by
      simp only [List.map_cons, Json.arrayText, Json.separated, List.append_assoc, List.cons_append,
        List.nil_append]
    rw [htext]
    refine (peekSolid_yields rfl _).bind ((advance_yields _ _).bind ?_)
    have hmore : (enoughSteps >>= moreLayers).Yields
        (l.canonical ++ ((ls.map Layer.canonical).flatMap (',' :: ·) ++ ']' :: rest)) (l :: ls) rest := by
      refine .of_enoughSteps fun steps hsteps => moreLayers_yields l ls ?_ rest
      have hlength := length_le_flatMap_comma (ls.map Layer.canonical)
      rw [List.length_map] at hlength
      rw [List.length_append, List.length_append] at hsteps
      omega
    rw [l.canonical_append] at hmore ⊢
    exact (closes_yields_false (by decide) rfl _).bind hmore

theorem field_id (s : String) (rest : List Char) :
    (field {} "id").Yields (':' :: (Json.quote s ++ rest)) { id := some s } rest :=
  (colon_yields _).bind ((text_yields _ s rest).bind (.of_pure _ rest))

theorem field_layers (s : String) (ls : List Layer) (rest : List Char) : (field { id := some s } "layers").Yields
    (':' :: (Json.arrayText (ls.map Layer.canonical) ++ rest)) { id := some s, layers := some ls } rest :=
  (colon_yields _).bind ((layers_yields ls rest).bind (.of_pure _ rest))

theorem field_logging (s : String) (ls : List Layer) (b : Bool) (rest : List Char) :
    (field { id := some s, layers := some ls } "logging").Yields (':' :: (Json.boolText b ++ rest))
      { id := some s, layers := some ls, logging := some b } rest :=
  (colon_yields _).bind ((flag_yields b rest).bind (.of_pure _ rest))

theorem fields_yields (c : Config) : (enoughSteps >>= fun steps => fields steps {}).Yields
    (Json.quote "id" ++ ':' :: (Json.quote c.id ++ ',' :: (Json.quote "layers" ++
      ':' :: (Json.arrayText (c.layers.map Layer.canonical) ++ ',' :: (Json.quote "logging" ++
        ':' :: (Json.boolText c.logging ++ ['}']))))))
    { id := some c.id, layers := some c.layers, logging := some c.logging } [] := by
  refine .of_enoughSteps fun steps hsteps => ?_
  have hthree : 3 ≤ steps := by
    have hname : (Json.quote "id").length = 4 := rfl
    rw [List.length_append, hname] at hsteps
    omega
  obtain ⟨steps, rfl⟩ := Nat.exists_eq_add_of_le' hthree
  refine (key_yields false "id" _).bind ((field_id c.id _).bind ((another_yields_true _ _).bind ?_))
  refine (key_yields false "layers" _).bind ((field_layers c.id c.layers _).bind ((another_yields_true _ _).bind ?_))
  refine (key_yields false "logging" _).bind ((field_logging c.id c.layers c.logging _).bind ?_)
  exact (another_yields_false (by decide) rfl []).bind (.of_pure _ [])

theorem canonical_eq (c : Config) : c.canonical = '{' :: (Json.quote "id" ++ ':' :: (Json.quote c.id ++
    ',' :: (Json.quote "layers" ++ ':' :: (Json.arrayText (c.layers.map Layer.canonical) ++
      ',' :: (Json.quote "logging" ++ ':' :: (Json.boolText c.logging ++ ['}'])))))) := by
  simp only [canonical, Json.objectText, Json.memberText, Json.separated, List.flatMap_cons, List.flatMap_nil,
    List.append_nil, List.append_assoc, List.cons_append]

theorem draft_yields (c : Config) :
    draft.Yields c.canonical { id := some c.id, layers := some c.layers, logging := some c.logging } [] := by
  rw [canonical_eq]
  refine (peekSolid_yields rfl _).bind ((advance_yields _ _).bind ?_)
  refine (closes_yields_false (by decide) rfl _).bind ?_
  rw [if_neg Bool.false_ne_true]
  exact fields_yields c

end FromJson

/-- What was written is read back, whether or not it is valid. -/
theorem readJson_json (c : Config) : readJson c.json = .ok c := by
  have hdraft : FromJson.draft.Yields c.json.toList
      { id := some c.id, layers := some c.layers, logging := some c.logging } [] := by
    rw [json, String.toList_ofList]
    exact FromJson.draft_yields c
  rw [readJson, hdraft.runAll]
  rfl

theorem checked_eq_ok_iff {c c' : Config} : c.checked = .ok c' ↔ c.validate = .ok () ∧ c = c' := by
  rw [checked]
  cases h : c.validate with
  | ok _ => exact ⟨fun he => ⟨rfl, Except.ok.inj he⟩, fun he => congrArg _ he.2⟩
  | error violation => exact ⟨nofun, nofun⟩

theorem validate_of_checked {c c' : Config} (h : c.checked = .ok c') : c'.validate = .ok () := by
  obtain ⟨hvalid, rfl⟩ := checked_eq_ok_iff.mp h
  exact hvalid

/-- Only valid configurations are handed out. -/
theorem validate_of_fromJson {text : String} {c : Config} (h : fromJson text = .ok c) : c.validate = .ok () := by
  rw [fromJson] at h
  split at h
  · exact validate_of_checked h
  · cases h

/-- So it is with texts in YAML. -/
theorem validate_of_fromYaml {text : String} {c : Config} (h : fromYaml text = .ok c) : c.validate = .ok () := by
  rw [fromYaml] at h
  split at h
  · exact validate_of_checked h
  · cases h

theorem fromJson_of_valid {c : Config} (h : c.validate = .ok ()) : fromJson c.json = .ok c := by
  rw [fromJson, readJson_json]
  exact checked_eq_ok_iff.mpr ⟨h, rfl⟩

/-- A configuration that was read from YAML can be kept as JSON: its JSON reads back as the configuration itself. -/
theorem fromJson_of_fromYaml {text : String} {c : Config} (h : fromYaml text = .ok c) : fromJson c.json = .ok c :=
  fromJson_of_valid (validate_of_fromYaml h)

/-- A valid configuration is read back from its own JSON just as it is: its name with all characters, each
layer with its kind and its setting, and the flag. So is any configuration that was read, from whatever text. -/
theorem fromJson_json :
    (∀ c : Config, c.validate = .ok () → fromJson c.json = .ok c) ∧
      ∀ text c, fromJson text = .ok c → fromJson c.json = .ok c :=
  ⟨fun _ h => fromJson_of_valid h, fun _ _ h => fromJson_of_valid (validate_of_fromJson h)⟩

/-- Quotes, a backslash and a control in the name, and settings at both ends of the range. -/
theorem fromJson_json_of_quoted_name :
    let c : Config := { id := "a\"b\\\u0001é😀", layers := [.lru 18446744073709551615, .weak 0, .lru 1], logging := false }
    c.validate = .ok () ∧ fromJson c.json = .ok c ∧
      fromJson "[\"rows\"]" = .ok { id := "rows" } ∧
      fromJson (json { id := "rows" }) = .ok { id := "rows" } := by
  intro c
  have hvalid : c.validate = .ok () := validate_eq_ok_iff.mpr ⟨by decide, by decide, by decide⟩
  have hread : fromJson "[\"rows\"]" = .ok { id := "rows" } := by rfl
  exact ⟨hvalid, fromJson_json.1 c hvalid, hread, fromJson_json.2 _ _ hread⟩

end ResultCache.Config
