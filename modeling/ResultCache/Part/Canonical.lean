import ResultCache.Binary64.Text
import ResultCache.Json.Writer
import ResultCache.Part.Text

/-!
Canonical JSON of parts: each form but null is an object whose one member names the form. There is
no space in it, bytes are unsigned numbers, and floats that are not finite are written as null.
-/

namespace ResultCache.Part

def tagged (name : String) (content : List Char) : List Char :=
  Json.objectText [Json.memberText name content]

mutual

/-- Writes the canonical text of a part in front of another text. -/
def writeCanonical : Part → List Char → List Char
  | null, rest => Json.quote "null" ++ rest
  | bool b, rest => tagged "bool" (Json.boolText b) ++ rest
  | int n, rest => tagged "int" (Text.integer n.toInt) ++ rest
  | float x, rest => tagged "float" (x.text Binary64.jsonStyle) ++ rest
  | text s, rest => tagged "str" (Json.quote s) ++ rest
  | bytes bs, rest =>
    tagged "bytes" (Json.arrayText (bs.map fun b => Text.natural b.toNat)) ++ rest
  | list items, rest =>
    '{' :: Json.memberText "list" ('[' :: writeCanonicalItems [] items ('}' :: rest))

/-- Writes elements and the bracket after them. The mark stands in front of the first element. -/
def writeCanonicalItems (mark : List Char) : List Part → List Char → List Char
  | [], rest => ']' :: rest
  | p :: items, rest => mark ++ p.writeCanonical (writeCanonicalItems [','] items rest)

end

def canonical (p : Part) : List Char := p.writeCanonical []

mutual

private theorem writeCanonical_append : (p : Part) → (head rest : List Char) →
    p.writeCanonical (head ++ rest) = p.writeCanonical head ++ rest
  | null, _, _ | bool _, _, _ | int _, _, _ | float _, _, _ | text _, _, _ | bytes _, _, _ => by
    simp only [writeCanonical, List.append_assoc]
  | list items, head, rest => by
    simp only [writeCanonical, ← List.cons_append,
      writeCanonicalItems_append [] items ('}' :: head) rest, Json.memberText, List.append_assoc]

private theorem writeCanonicalItems_append (mark : List Char) : (items : List Part) →
    (head rest : List Char) →
    writeCanonicalItems mark items (head ++ rest) = writeCanonicalItems mark items head ++ rest
  | [], _, _ => by simp only [writeCanonicalItems, List.cons_append]
  | p :: items, head, rest => by
    simp only [writeCanonicalItems, writeCanonicalItems_append [','] items head rest,
      writeCanonical_append p, List.append_assoc]

end

theorem writeCanonical_eq (p : Part) (rest : List Char) :
    p.writeCanonical rest = p.canonical ++ rest :=
  writeCanonical_append p [] rest

private theorem writeCanonicalItems_eq (items : List Part) (rest : List Char) :
    writeCanonicalItems [','] items rest =
      (items.map canonical).flatMap (',' :: ·) ++ ']' :: rest := by
  induction items with
  | nil => simp only [writeCanonicalItems, List.map_nil, List.flatMap_nil, List.nil_append]
  | cons p items ih =>
    simp only [writeCanonicalItems, ih, writeCanonical_eq, List.map_cons, List.flatMap_cons,
      List.append_assoc, List.cons_append, List.nil_append]

/-- A list is written as an array of its elements. -/
theorem canonical_list (items : List Part) :
    (list items).canonical = tagged "list" (Json.arrayText (items.map canonical)) := by
  have members : writeCanonicalItems [] items ['}'] =
      Json.separated (items.map canonical) ++ [']', '}'] := by
    cases items with
    | nil => rfl
    | cons p items =>
      simp only [writeCanonicalItems, writeCanonicalItems_eq, writeCanonical_eq, Json.separated,
        List.map_cons, List.nil_append, List.append_assoc]
  simp only [canonical, writeCanonical, members, tagged, Json.objectText, Json.arrayText,
    Json.memberText, Json.separated, List.flatMap_nil, List.append_nil, List.append_assoc,
    List.cons_append, List.nil_append]

end ResultCache.Part
