import ResultCache.Config.Build

/-! Which configurations are valid, and which rule is reported of one that is not: the first that it breaks.
The split at the weak layer gives all layers of a valid one, with no other weak layer on either side. -/
namespace ResultCache.Config

def Layer.isWeak : Layer → Bool
  | lru _ => false
  | weak _ => true

def Layer.hasRoom : Layer → Bool
  | lru capacity => capacity != 0
  | weak _ => true

/-- The check of the layers counts the weak ones, unless there is a recency layer without room. -/
theorem checkLayers_eq_ok_iff {number weak n : Nat} {layers : List Layer} :
    checkLayers number weak layers = .ok n ↔
      (∀ layer ∈ layers, layer.hasRoom = true) ∧ n = weak + layers.countP Layer.isWeak := by
  induction layers generalizing number weak with
  | nil =>
    rw [checkLayers, Except.ok.injEq]
    exact ⟨fun h => ⟨fun _ hm => (List.not_mem_nil hm).elim, h.symm⟩, fun h => h.2.symm⟩
  | cons layer layers ih =>
    rw [List.forall_mem_cons]
    cases layer with
    | lru capacity =>
      rw [checkLayers, List.countP_cons_of_neg Bool.false_ne_true, Layer.hasRoom, bne_iff_ne]
      split
      · next hzero => exact ⟨nofun, fun h => (h.1.1 hzero).elim⟩
      · next hroom => rw [ih, and_iff_right hroom]
    | weak pinCount =>
      have hroom : (Layer.weak pinCount).hasRoom = true := rfl
      rw [checkLayers, ih, List.countP_cons_of_pos rfl, and_iff_right hroom]
      refine and_congr_right fun _ => ?_
      omega

/-- The number of the first recency layer without room. -/
def FirstWithoutRoom (layers : List Layer) (i : Nat) : Prop :=
  layers[i]? = some (.lru 0) ∧ ∀ j < i, layers[j]? ≠ some (.lru 0)

private theorem firstWithoutRoom_zero (layers : List Layer) {i : Nat} :
    FirstWithoutRoom (.lru 0 :: layers) i ↔ i = 0 := by
  constructor
  · rintro ⟨-, hbefore⟩
    cases i with
    | zero => rfl
    | succ i => exact (hbefore 0 i.succ_pos rfl).elim
  · rintro rfl
    exact ⟨rfl, fun j hj => (Nat.not_lt_zero j hj).elim⟩

private theorem firstWithoutRoom_cons {layer : Layer} (hroom : layer.hasRoom = true) (layers : List Layer)
    {i : Nat} : FirstWithoutRoom (layer :: layers) i ↔ ∃ j, i = j + 1 ∧ FirstWithoutRoom layers j := by
  have hfirst : (layer :: layers)[0]? ≠ some (.lru 0) := by
    rintro ⟨⟩
    cases hroom
  constructor
  · rintro ⟨hi, hbefore⟩
    cases i with
    | zero => exact (hfirst hi).elim
    | succ i => exact ⟨i, rfl, hi, fun j hj => hbefore (j + 1) (Nat.succ_lt_succ hj)⟩
  · rintro ⟨i, rfl, hi, hbefore⟩
    refine ⟨hi, fun j hj => ?_⟩
    cases j with
    | zero => exact hfirst
    | succ j => exact hbefore j (Nat.lt_of_succ_lt_succ hj)

private theorem checkLayers_cons {layer : Layer} (hroom : layer.hasRoom = true) (number weak : Nat)
    (layers : List Layer) :
    ∃ weak', checkLayers number weak (layer :: layers) = checkLayers (number + 1) weak' layers := by
  cases layer with
  | lru capacity => exact ⟨weak, if_neg (bne_iff_ne.mp hroom)⟩
  | weak pinCount => exact ⟨weak + 1, rfl⟩

/-- The check stops at the first recency layer without room, however many weak layers it has met. -/
theorem checkLayers_eq_error_iff {number weak : Nat} {layers : List Layer} {violation : Violation} :
    checkLayers number weak layers = .error violation ↔
      ∃ i, violation = .zeroCapacity (number + i) ∧ FirstWithoutRoom layers i := by
  induction layers generalizing number weak with
  | nil => exact ⟨nofun, fun ⟨_, _, hi, _⟩ => by cases hi⟩
  | cons layer layers ih =>
    by_cases hzero : layer = .lru 0
    · subst hzero
      rw [checkLayers, if_pos rfl, Except.error.injEq]
      simp only [firstWithoutRoom_zero, exists_eq_right, Nat.add_zero]
      exact eq_comm
    · have hroom : layer.hasRoom = true := by
        cases layer with
        | lru capacity => exact bne_iff_ne.mpr fun h => hzero (congrArg Layer.lru h)
        | weak pinCount => rfl
      obtain ⟨weak', hskip⟩ := checkLayers_cons hroom number weak layers
      rw [hskip, ih]
      simp only [firstWithoutRoom_cons hroom]
      constructor
      · rintro ⟨i, rfl, hi⟩
        exact ⟨i + 1, by rw [Nat.add_assoc, Nat.add_comm 1], i, rfl, hi⟩
      · rintro ⟨_, rfl, i, rfl, hi⟩
        exact ⟨i, by rw [Nat.add_assoc, Nat.add_comm 1], hi⟩

/-- Validation demands a name that is not blank, room in each recency layer, and no second weak layer. -/
theorem validate_eq_ok_iff {c : Config} : c.validate = .ok () ↔ Text.allBlank c.id = false ∧
    (∀ layer ∈ c.layers, layer.hasRoom = true) ∧ c.layers.countP Layer.isWeak ≤ 1 := by
  rw [validate]
  cases hblank : Text.allBlank c.id with
  | true => exact ⟨nofun, nofun⟩
  | false =>
    cases hcheck : checkLayers 0 0 c.layers with
    | error violation =>
      refine ⟨nofun, fun ⟨_, hroom, _⟩ => ?_⟩
      cases hcheck.symm.trans (checkLayers_eq_ok_iff.mpr ⟨hroom, rfl⟩)
    | ok weak =>
      obtain ⟨hroom, hweak⟩ := checkLayers_eq_ok_iff.mp hcheck
      rw [Nat.zero_add] at hweak
      subst hweak
      change (if 1 < c.layers.countP Layer.isWeak then
        .error (Violation.severalWeak (c.layers.countP Layer.isWeak)) else .ok ()) = Except.ok () ↔ _
      split
      · next hseveral => exact ⟨nofun, fun h => absurd h.2.2 (Nat.not_le_of_lt hseveral)⟩
      · next hone => exact ⟨fun _ => ⟨rfl, hroom, Nat.le_of_not_lt hone⟩, fun _ => rfl⟩

/-- The name is looked at first, then the room of all layers, and the number of weak layers last. -/
theorem validate_eq_error_iff {c : Config} {violation : Violation} : c.validate = .error violation ↔
    Text.allBlank c.id = true ∧ violation = .blankId ∨ Text.allBlank c.id = false ∧
      ((∃ i, FirstWithoutRoom c.layers i ∧ violation = .zeroCapacity i) ∨
        (∀ layer ∈ c.layers, layer.hasRoom = true) ∧ 1 < c.layers.countP Layer.isWeak ∧
          violation = .severalWeak (c.layers.countP Layer.isWeak)) := by
  have hfault : (∃ i, FirstWithoutRoom c.layers i ∧ violation = .zeroCapacity i) ↔
      checkLayers 0 0 c.layers = .error violation := by
    simp only [checkLayers_eq_error_iff, Nat.zero_add, and_comm]
  have hroom : (∀ layer ∈ c.layers, layer.hasRoom = true) ↔
      checkLayers 0 0 c.layers = .ok (c.layers.countP Layer.isWeak) := by
    rw [checkLayers_eq_ok_iff, Nat.zero_add, and_iff_left rfl]
  rw [validate, hfault, hroom]
  cases hblank : Text.allBlank c.id with
  | true =>
    rw [and_iff_right rfl, or_iff_left (fun h => Bool.noConfusion h.1)]
    exact ⟨fun h => (Except.error.inj h).symm, fun h => congrArg Except.error h.symm⟩
  | false =>
    rw [or_iff_right (fun h => Bool.noConfusion h.1), and_iff_right rfl]
    cases hcheck : checkLayers 0 0 c.layers with
    | error broken =>
      change Except.error broken = Except.error violation ↔ _
      rw [or_iff_left (fun h => nomatch h.1), Except.error.injEq, Except.error.injEq]
    | ok weak =>
      obtain rfl : weak = c.layers.countP Layer.isWeak := by
        rw [(checkLayers_eq_ok_iff.mp hcheck).2, Nat.zero_add]
      change (if 1 < c.layers.countP Layer.isWeak then
        .error (Violation.severalWeak (c.layers.countP Layer.isWeak)) else .ok ()) = Except.error violation ↔ _
      split
      · next hseveral => exact ⟨fun h => .inr ⟨rfl, hseveral, (Except.error.inj h).symm⟩,
          fun h => h.elim nofun fun h => congrArg Except.error h.2.2.symm⟩
      · next hone => exact ⟨nofun, fun h => h.elim nofun fun h => (hone h.2.1).elim⟩

private theorem allBlank_eq_true_iff {text : String} :
    Text.allBlank text = true ↔ ∀ ch ∈ text.toList, Text.isBlank ch = true := List.all_eq_true

private theorem allBlank_eq_false_iff {text : String} :
    Text.allBlank text = false ↔ ∃ ch ∈ text.toList, Text.isBlank ch = false := by
  simp [Text.allBlank]

private theorem hasRoom_iff {layers : List Layer} : (∀ layer ∈ layers, layer.hasRoom = true) ↔
    ∀ capacity, Layer.lru capacity ∈ layers → 1 ≤ capacity.toNat := by
  have hpos : ∀ capacity, (Layer.lru capacity).hasRoom = true ↔ 1 ≤ capacity.toNat := by
    intro capacity
    rw [Layer.hasRoom, bne_iff_ne, Nat.one_le_iff_ne_zero, Ne, Ne, ← UInt64.toNat_inj]
    rfl
  constructor
  · exact fun h capacity hm => (hpos capacity).mp (h _ hm)
  · intro h layer hm
    cases layer with
    | lru capacity => exact (hpos capacity).mpr (h capacity hm)
    | weak pinCount => rfl

/-- A configuration is valid if its name has a character that is not blank, every recency layer has room,
and at most one layer is weak. The error of any other tells of the first rule in this order that it breaks:
the field of the name, the first recency layer without room whatever weak layers come before it, or the
number of all weak layers. -/
theorem first_broken_rule_reported (c : Config) :
    (c.validate = .ok () ↔ (∃ ch ∈ c.id.toList, Text.isBlank ch = false) ∧
      (∀ capacity, Layer.lru capacity ∈ c.layers → 1 ≤ capacity.toNat) ∧
      c.layers.countP Layer.isWeak ≤ 1) ∧
    ∀ e, c.validate.mapError Violation.error = .error e ↔
      (∀ ch ∈ c.id.toList, Text.isBlank ch = true) ∧
        e = .configuration "cache id must not be empty"
          { fieldPath := some "id", source := some "cache_config" } ∨
      (∃ ch ∈ c.id.toList, Text.isBlank ch = false) ∧
        ((∃ i : Nat, c.layers[i]? = some (.lru 0) ∧ (∀ j < i, c.layers[j]? ≠ some (.lru 0)) ∧
          e = .configuration "LRU capacity must be greater than zero"
            { fieldPath := some ("layers[" ++ toString i ++ "].capacity"), source := some "cache_config" }) ∨
        (∀ capacity, Layer.lru capacity ∈ c.layers → 1 ≤ capacity.toNat) ∧
          1 < c.layers.countP Layer.isWeak ∧
          e = .configuration "at most one weak layer is allowed"
            { fieldPath := some "layers"
              details := some ("found " ++ toString (c.layers.countP Layer.isWeak) ++ " weak layers")
              source := some "cache_config" }) := by
  rw [validate_eq_ok_iff, hasRoom_iff, allBlank_eq_false_iff]
  refine ⟨Iff.rfl, fun e => ?_⟩
  have hreport : c.validate.mapError Violation.error = .error e ↔
      ∃ violation, c.validate = .error violation ∧ e = violation.error := by
    cases c.validate with
    | error violation =>
      exact ⟨fun h => ⟨violation, rfl, (Except.error.inj h).symm⟩,
        fun ⟨_, h, he⟩ => by rw [he, ← Except.error.inj h]; rfl⟩
    | ok valid => exact ⟨nofun, nofun⟩
  simp only [hreport, validate_eq_error_iff, hasRoom_iff, allBlank_eq_false_iff, allBlank_eq_true_iff]
  constructor
  · rintro ⟨_, ⟨hblank, rfl⟩ | ⟨hname, ⟨i, hi, rfl⟩ | ⟨hroom, hweak, rfl⟩⟩, rfl⟩
    · exact .inl ⟨hblank, rfl⟩
    · exact .inr ⟨hname, .inl ⟨i, hi.1, hi.2, rfl⟩⟩
    · exact .inr ⟨hname, .inr ⟨hroom, hweak, rfl⟩⟩
  · rintro (⟨hblank, rfl⟩ | ⟨hname, ⟨i, hi, hbefore, rfl⟩ | ⟨hroom, hweak, rfl⟩⟩)
    · exact ⟨.blankId, .inl ⟨hblank, rfl⟩, rfl⟩
    · exact ⟨.zeroCapacity i, .inr ⟨hname, .inl ⟨i, ⟨hi, hbefore⟩, rfl⟩⟩, rfl⟩
    · exact ⟨.severalWeak _, .inr ⟨hname, .inr ⟨hroom, hweak, rfl⟩⟩, rfl⟩

/-- The first weak layer splits the list, and there is no weak layer in front of it. -/
theorem splitAtWeak_cases (layers : List Layer) :
    (splitAtWeak layers = none ∧ layers.countP Layer.isWeak = 0) ∨
      ∃ below pinCount above, splitAtWeak layers = some (below, pinCount, above) ∧
        layers = below ++ .weak pinCount :: above ∧ below.countP Layer.isWeak = 0 := by
  induction layers with
  | nil => exact .inl ⟨rfl, rfl⟩
  | cons layer layers ih =>
    cases layer with
    | lru capacity =>
      rw [splitAtWeak, List.countP_cons_of_neg Bool.false_ne_true]
      rcases ih with ⟨hsplit, hcount⟩ | ⟨below, pinCount, above, hsplit, rfl, hcount⟩
      · exact .inl ⟨by rw [hsplit]; rfl, hcount⟩
      · refine .inr ⟨.lru capacity :: below, pinCount, above, by rw [hsplit]; rfl, rfl, ?_⟩
        rwa [List.countP_cons_of_neg Bool.false_ne_true]
    | weak pinCount => exact .inr ⟨[], pinCount, layers, rfl, rfl, rfl⟩

end ResultCache.Config
