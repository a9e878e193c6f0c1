import ResultCache.Part.Canonical
import ResultCache.Proofs.Binary64.Text

/-! What the canonical text keeps of a part. It keeps all but which number a float was that is none: such floats
are written alike, and every other part can be read back from its text. -/
namespace ResultCache.Part

/-- Induction over lists in lists, with one case for each form. -/
@[elab_as_elim]
theorem induction {motive : Part → Prop} (null : motive null) (bool : ∀ b, motive (bool b))
    (int : ∀ n, motive (int n)) (float : ∀ x, motive (float x)) (text : ∀ s, motive (text s))
    (bytes : ∀ bs, motive (bytes bs)) (list : ∀ items, (∀ p ∈ items, motive p) → motive (list items)) :
    ∀ p, motive p :=
  fun p => Part.rec (motive_2 := fun items => ∀ p ∈ items, motive p)
    null bool int float text bytes list nofun (fun _ _ h hs => List.forall_mem_cons.mpr ⟨h, hs⟩) p

mutual

/-- Every float in the part is a finite number, however deep it stands. -/
def isFinite : Part → Bool
  | float x => x.isFinite
  | list items => areFinite items
  | _ => true

def areFinite : List Part → Bool
  | [] => true
  | p :: items => p.isFinite && areFinite items

end

mutual

def blurred : Part → Part
  | float x => float x.blurred
  | list items => list (blurredItems items)
  | p => p

def blurredItems : List Part → List Part
  | [] => []
  | p :: items => p.blurred :: blurredItems items

end

theorem blurredItems_eq_map (items : List Part) : blurredItems items = items.map blurred := by
  induction items with
  | nil => rfl
  | cons p items ih => exact congrArg (p.blurred :: ·) ih

theorem areFinite_iff {items : List Part} : areFinite items = true ↔ ∀ p ∈ items, p.isFinite = true := by
  induction items with
  | nil => exact ⟨fun _ => nofun, fun _ => rfl⟩
  | cons p items ih => rw [areFinite, Bool.and_eq_true, ih, List.forall_mem_cons]

/-- Finite parts are kept as they are. -/
theorem blurred_of_finite (p : Part) (h : p.isFinite = true) : p.blurred = p := by
  induction p using induction with
  | null => rfl
  | bool b => rfl
  | int n => rfl
  | float x => exact congrArg float (Binary64.blurred_of_finite h)
  | text s => rfl
  | bytes bs => rfl
  | list items ih =>
    have hitems : items.map blurred = items.map id :=
      List.map_congr_left fun p hp => ih p hp (areFinite_iff.mp h p hp)
    rw [blurred, blurredItems_eq_map, hitems, List.map_id]

theorem isFinite_blurred (p : Part) : p.blurred.isFinite = p.isFinite := by
  induction p using induction with
  | null => rfl
  | bool b => rfl
  | int n => rfl
  | float x => exact x.isFinite_blurred
  | text s => rfl
  | bytes bs => rfl
  | list items ih =>
    rw [blurred, blurredItems_eq_map, isFinite, isFinite, Bool.eq_iff_iff, areFinite_iff, areFinite_iff,
      List.forall_mem_map]
    exact forall₂_congr fun p hp => by rw [ih p hp]

def tag : Part → Option String
  | null => none
  | bool _ => some "bool"
  | int _ => some "int"
  | float _ => some "float"
  | text _ => some "str"
  | bytes _ => some "bytes"
  | list _ => some "list"

def content : Part → List Char
  | null => []
  | bool b => Json.boolText b
  | int n => Text.integer n.toInt
  | float x => x.text Binary64.jsonStyle
  | text s => Json.quote s
  | bytes bs => Json.arrayText (bs.map fun b => Text.natural b.toNat)
  | list items => Json.arrayText (items.map canonical)

theorem eq_null_of_tag {p : Part} (h : p.tag = none) : p = null := by
  cases p with
  | null => rfl
  | _ => cases h

theorem canonical_eq (p : Part) : p.canonical = p.tag.elim (Json.quote "null") (tagged · p.content) := by
  cases p with
  | list items => exact canonical_list items
  | _ => exact List.append_nil _

theorem tagged_append (name : String) (content rest : List Char) :
    tagged name content ++ rest = '{' :: (Json.quote name ++ ':' :: (content ++ '}' :: rest)) := by
  simp only [tagged, Json.objectText, Json.memberText, Json.separated, List.flatMap_nil, List.append_nil,
    List.append_assoc, List.cons_append, List.nil_append]

/-- Both start in the same way only if they are of one form. -/
theorem tag_eq_of_canonical {p q : Part} {rest rest' : List Char} (h : p.canonical ++ rest = q.canonical ++ rest') :
    p.tag = q.tag ∧ (p.tag = none → rest = rest') ∧
      (p.tag ≠ none → p.content ++ '}' :: rest = q.content ++ '}' :: rest') := by
  rw [canonical_eq, canonical_eq] at h
  cases hp : p.tag with
  | none =>
    cases hq : q.tag with
    | none =>
      rw [hp, hq] at h
      exact ⟨rfl, fun _ => List.append_cancel_left h, fun hne => (hne rfl).elim⟩
    | some name =>
      rw [hp, hq, Option.elim, Option.elim, tagged_append] at h
      cases (List.cons.inj h).1
  | some name =>
    cases hq : q.tag with
    | none =>
      rw [hp, hq, Option.elim, Option.elim, tagged_append] at h
      cases (List.cons.inj h).1
    | some name' =>
      rw [hp, hq, Option.elim, Option.elim, tagged_append, tagged_append] at h
      obtain ⟨rfl, hcontent⟩ := Json.quote_unique (List.cons.inj h).2
      exact ⟨rfl, nofun, fun _ => (List.cons.inj hcontent).2⟩

theorem byte_legible (b : UInt8) : Json.Legible (fun b : UInt8 => Text.natural b.toNat) id b := by
  intro c rest rest' hrest hrest' h
  dsimp only at h
  rw [← Text.integer_natCast, ← Text.integer_natCast] at h
  obtain ⟨hvalue, hrests⟩ := Json.integer_legible _ _ rest rest' hrest hrest' h
  exact ⟨UInt8.toNat_inj.mp (Int.ofNat.inj hvalue), hrests⟩

/-- No form starts like the end of an array. -/
theorem canonical_start (p : Part) : ∃ c cs, p.canonical = c :: cs ∧ c ≠ ']' := by
  rw [canonical_eq]
  cases p.tag with
  | none => exact ⟨'"', _, rfl, by decide⟩
  | some name => exact ⟨'{', _, rfl, by decide⟩

theorem byte_start (b : UInt8) : ∃ c cs, Text.natural b.toNat = c :: cs ∧ c ≠ ']' := by
  obtain ⟨hne, hdigits⟩ := Json.isDigits_toDigits b.toNat
  obtain ⟨c, cs, hcs⟩ := List.exists_cons_of_ne_nil hne
  refine ⟨c, cs, hcs, ?_⟩
  rintro rfl
  cases hdigits ']' (hcs ▸ List.mem_cons_self)

/-- What is written after the name shows the part, among the parts of its form. -/
def Shown (p : Part) : Prop :=
  ∀ (q : Part) (rest rest' : List Char), p.tag = q.tag → Json.Delimited rest → Json.Delimited rest' →
    p.content ++ rest = q.content ++ rest' → p.blurred = q.blurred ∧ rest = rest'

theorem Shown.of_canonical {p q : Part} {rest rest' : List Char} (hp : p.Shown)
    (h : p.canonical ++ rest = q.canonical ++ rest') : p.blurred = q.blurred ∧ rest = rest' := by
  obtain ⟨htag, hnull, hcontent⟩ := tag_eq_of_canonical h
  cases htagged : p.tag with
  | none =>
    have hq := htag ▸ htagged
    rw [eq_null_of_tag htagged, eq_null_of_tag hq]
    exact ⟨rfl, hnull htagged⟩
  | some name =>
    have hne : p.tag ≠ none := htagged ▸ nofun
    obtain ⟨hblurred, hrests⟩ := hp q _ _ htag (Json.delimited_brace _) (Json.delimited_brace _) (hcontent hne)
    exact ⟨hblurred, (List.cons.inj hrests).2⟩

/-- Each form is read as its content is; the elements of a list are parts again. -/
theorem shown (p : Part) : p.Shown := by
  induction p using induction with
  | null =>
    intro q rest rest' htag hrest hrest' h
    cases q with
    | null => exact ⟨rfl, h⟩
    | _ => cases htag
  | bool b =>
    intro q rest rest' htag hrest hrest' h
    cases q with
    | bool c =>
      obtain ⟨hvalue, hrests⟩ := Json.boolText_legible b c rest rest' hrest hrest' h
      exact ⟨congrArg bool hvalue, hrests⟩
    | _ => simp [tag] at htag
  | int n =>
    intro q rest rest' htag hrest hrest' h
    cases q with
    | int m =>
      obtain ⟨hvalue, hrests⟩ := Json.integer_legible n.toInt m.toInt rest rest' hrest hrest' h
      exact ⟨congrArg int (Int64.toInt_inj.mp hvalue), hrests⟩
    | _ => simp [tag] at htag
  | float x =>
    intro q rest rest' htag hrest hrest' h
    cases q with
    | float y =>
      obtain ⟨hvalue, hrests⟩ := x.text_legible y rest rest' hrest hrest' h
      exact ⟨congrArg float hvalue, hrests⟩
    | _ => simp [tag] at htag
  | text s =>
    intro q rest rest' htag hrest hrest' h
    cases q with
    | text t =>
      obtain ⟨hvalue, hrests⟩ := Json.quote_unique h
      exact ⟨congrArg text hvalue, hrests⟩
    | _ => simp [tag] at htag
  | bytes bs =>
    intro q rest rest' htag hrest hrest' h
    cases q with
    | bytes cs =>
      obtain ⟨hvalues, hrests⟩ := Json.arrayText_unique byte_start (fun b _ => byte_legible b) h
      rw [List.map_id, List.map_id] at hvalues
      exact ⟨congrArg bytes hvalues, hrests⟩
    | _ => simp [tag] at htag
  | list items ih =>
    intro q rest rest' htag hrest hrest' h
    cases q with
    | list others =>
      have hitems : ∀ p ∈ items, Json.Legible canonical blurred p :=
        fun p hp q rest rest' _ _ h => (ih p hp).of_canonical h
      obtain ⟨hvalues, hrests⟩ := Json.arrayText_unique canonical_start hitems h
      rw [blurred, blurred, blurredItems_eq_map, blurredItems_eq_map, hvalues]
      exact ⟨rfl, hrests⟩
    | _ => simp [tag] at htag

/-- The text of a part shows where it ends and all of the part, but for floats that are not finite. -/
theorem canonical_unique {p q : Part} {rest rest' : List Char} (h : p.canonical ++ rest = q.canonical ++ rest') :
    p.blurred = q.blurred ∧ rest = rest' := p.shown.of_canonical h

/-- The text keeps nothing else, so it is the same for parts that differ in such floats alone. -/
theorem canonical_blurred (p : Part) : p.blurred.canonical = p.canonical := by
  induction p using induction with
  | null => rfl
  | bool b => rfl
  | int n => rfl
  | float x => exact congrArg (tagged "float" · ++ []) x.text_blurred
  | text s => rfl
  | bytes bs => rfl
  | list items ih =>
    have hitems : (items.map blurred).map canonical = items.map canonical := by
      rw [List.map_map]
      exact List.map_congr_left ih
    rw [blurred, blurredItems_eq_map, canonical_list, canonical_list, hitems]

theorem canonical_eq_iff {p q : Part} : p.canonical = q.canonical ↔ p.blurred = q.blurred := by
  constructor
  · intro h
    exact (canonical_unique (congrArg (· ++ []) h)).1
  · intro h
    rw [← canonical_blurred p, h, canonical_blurred]

end ResultCache.Part
