import ResultCache.Part
import ResultCache.Text.Units

/-!
Hash codes of parts, in wrapping 32-bit arithmetic. They depend on the content alone, so they are
the same in every run; parts of different form may share one.
-/

namespace ResultCache.Part

def foldWide (bits : UInt64) : Int32 := (bits ^^^ (bits >>> 32)).toUInt32.toInt32

def hashStep (h element : Int32) : Int32 := h * 31 + element

mutual

/-- Texts are hashed by their UTF-16 units, bytes as signed numbers. -/
def hashCode : Part → Int32
  | null => 0
  | bool b => if b then 1231 else 1237
  | int n => foldWide n.toUInt64
  | float x => foldWide x.bits
  | text s => (Text.units s).foldl (fun h u => hashStep h (Int32.ofNat u)) 0
  | bytes bs => bs.foldl (fun h b => hashStep h b.toInt8.toInt32) 1
  | list items => hashItems 1 items

def hashItems (h : Int32) : List Part → Int32
  | [] => h
  | p :: items => hashItems (hashStep h p.hashCode) items

end

/-- What a part adds to a fingerprint. Null counts as one there, though not inside a list. -/
def weight (p : Part) : Int32 := if p.isNull then 1 else p.hashCode

instance : Hashable Part := ⟨fun p => p.hashCode.toUInt32.toUInt64⟩

theorem hashItems_eq_foldl (h : Int32) (items : List Part) :
    hashItems h items = items.foldl (fun h p => hashStep h p.hashCode) h := by
  induction items generalizing h with
  | nil => rfl
  | cons p items ih => simp only [hashItems, List.foldl_cons, ih]

end ResultCache.Part
