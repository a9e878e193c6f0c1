import ResultCache.Binary64.Text
import ResultCache.Json.Writer
import ResultCache.Part

/-!
Readable texts of parts. Texts stand without quotes and bytes as signed numbers, so different
parts may have the same text.
-/

namespace ResultCache.Part

def bracketed : List (List Char) → List Char
  | [] => ['[', ']']
  | first :: rest => '[' :: first ++ rest.flatMap ([',', ' '] ++ ·) ++ [']']

mutual

def write : Part → List Char → List Char
  | null, rest => ['n', 'u', 'l', 'l'] ++ rest
  | bool b, rest => Json.boolText b ++ rest
  | int n, rest => Text.integer n.toInt ++ rest
  | float x, rest => x.text Binary64.plainStyle ++ rest
  | text s, rest => s.toList ++ rest
  | bytes bs, rest => bracketed (bs.map fun b => Text.integer b.toInt8.toInt) ++ rest
  | list items, rest => '[' :: writeItems [] items rest

/-- Writes elements and the bracket after them. The mark stands in front of the first element. -/
def writeItems (mark : List Char) : List Part → List Char → List Char
  | [], rest => ']' :: rest
  | p :: items, rest => mark ++ p.write (writeItems [',', ' '] items rest)

end

def chars (p : Part) : List Char := p.write []

mutual

private theorem write_append : (p : Part) → (head rest : List Char) →
    p.write (head ++ rest) = p.write head ++ rest
  | null, _, _ | bool _, _, _ | int _, _, _ | float _, _, _ | text _, _, _ | bytes _, _, _ => by
    simp only [write, List.append_assoc]
  | list items, head, rest => by
    simp only [write, writeItems_append [] items head rest, List.cons_append]

private theorem writeItems_append (mark : List Char) : (items : List Part) →
    (head rest : List Char) →
    writeItems mark items (head ++ rest) = writeItems mark items head ++ rest
  | [], _, _ => by simp only [writeItems, List.cons_append]
  | p :: items, head, rest => by
    simp only [writeItems, writeItems_append [',', ' '] items head rest, write_append p,
      List.append_assoc]

end

theorem write_eq (p : Part) (rest : List Char) : p.write rest = p.chars ++ rest :=
  write_append p [] rest

private theorem writeItems_eq (items : List Part) :
    writeItems [',', ' '] items [] = (items.map chars).flatMap ([',', ' '] ++ ·) ++ [']'] := by
  induction items with
  | nil => simp only [writeItems, List.map_nil, List.flatMap_nil, List.nil_append]
  | cons p items ih =>
    simp only [writeItems, ih, write_eq, List.map_cons, List.flatMap_cons, List.append_assoc]

/-- A list is written as its elements in brackets. -/
theorem chars_list (items : List Part) : (list items).chars = bracketed (items.map chars) := by
  cases items with
  | nil => rfl
  | cons p items =>
    simp only [chars, write, writeItems, List.nil_append, List.map_cons, bracketed]
    rw [writeItems_eq, write_eq]
    simp only [chars, List.cons_append, List.append_assoc]

instance : ToString Part := ⟨fun p => String.ofList p.chars⟩

end ResultCache.Part
