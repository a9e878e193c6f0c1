import ResultCache.Binary64.Basic
import ResultCache.Text.Decimal

/-!
Parts, the values a fingerprint is made of. Equal parts have the same form and the same content at
every depth: a number never equals its text, and floats are compared by their bits.
-/

namespace ResultCache

inductive Part where
  | null
  | bool (b : Bool)
  | int (n : Int64)
  | float (x : Binary64)
  | text (s : String)
  | bytes (bs : List UInt8)
  | list (items : List Part)
  deriving Inhabited

namespace Part

mutual

def same : Part → Part → Bool
  | null, null => true
  | bool a, bool b => a == b
  | int a, int b => a == b
  | float a, float b => a == b
  | text a, text b => a == b
  | bytes a, bytes b => a == b
  | list a, list b => sameItems a b
  | _, _ => false

def sameItems : List Part → List Part → Bool
  | [], [] => true
  | a :: as, b :: bs => same a b && sameItems as bs
  | _, _ => false

end

instance : BEq Part := ⟨same⟩

mutual

private theorem same_self : (p : Part) → same p p = true
  | null => rfl
  | bool _ => by simp [same]
  | int _ => by simp [same]
  | float _ => by simp [same]
  | text _ => by simp [same]
  | bytes _ => by simp [same]
  | list items => by simpa only [same] using sameItems_self items

private theorem sameItems_self : (items : List Part) → sameItems items items = true
  | [] => rfl
  | p :: items => by simp only [sameItems, same_self p, sameItems_self items, Bool.and_self]

end

mutual

private theorem eq_of_same : (a b : Part) → same a b = true → a = b
  | null, b, h => by cases b <;> simp_all [same]
  | bool _, b, h => by cases b <;> simp_all [same]
  | int _, b, h => by cases b <;> simp_all [same]
  | float _, b, h => by cases b <;> simp_all [same]
  | text _, b, h => by cases b <;> simp_all [same]
  | bytes _, b, h => by cases b <;> simp_all [same]
  | list as, b, h => by
    cases b with
    | list bs => rw [eq_of_sameItems as bs (by simpa only [same] using h)]
    | _ => simp [same] at h

private theorem eq_of_sameItems : (as bs : List Part) → sameItems as bs = true → as = bs
  | [], bs, h => by cases bs <;> simp_all [sameItems]
  | a :: as, bs, h => by
    cases bs with
    | nil => simp [sameItems] at h
    | cons b bs =>
      simp only [sameItems, Bool.and_eq_true] at h
      rw [eq_of_same a b h.1, eq_of_sameItems as bs h.2]

end

instance : LawfulBEq Part where
  rfl := same_self _
  eq_of_beq := eq_of_same _ _

instance : DecidableEq Part := instDecidableEqOfLawfulBEq

def isNull : Part → Bool
  | null => true
  | _ => false

/-- The part of a natural number. One too great for a signed word keeps its decimal text. -/
def ofNat (n : Nat) : Part :=
  if n < 0x8000000000000000 then int (Int64.ofNat n) else text (String.ofList (Text.natural n))

end Part

/-- Values that have a part of their own. -/
class ToPart (α : Type) where
  toPart : α → Part

export ToPart (toPart)

instance : ToPart Part := ⟨id⟩
instance : ToPart Bool := ⟨.bool⟩
instance : ToPart Int8 := ⟨fun n => .int n.toInt64⟩
instance : ToPart Int16 := ⟨fun n => .int n.toInt64⟩
instance : ToPart Int32 := ⟨fun n => .int n.toInt64⟩
instance : ToPart Int64 := ⟨.int⟩
instance : ToPart UInt8 := ⟨fun n => .int (Int64.ofNat n.toNat)⟩
instance : ToPart UInt16 := ⟨fun n => .int (Int64.ofNat n.toNat)⟩
instance : ToPart UInt32 := ⟨fun n => .int (Int64.ofNat n.toNat)⟩
instance : ToPart UInt64 := ⟨fun n => .ofNat n.toNat⟩
instance : ToPart Binary64 := ⟨.float⟩
instance : ToPart Char := ⟨fun c => .text (String.singleton c)⟩
instance : ToPart String := ⟨.text⟩

/-- An absent value is null. -/
instance {α : Type} [ToPart α] : ToPart (Option α) :=
  ⟨fun value => value.elim .null toPart⟩

instance {α : Type} [ToPart α] : ToPart (List α) :=
  ⟨fun values => .list (values.map toPart)⟩

end ResultCache
