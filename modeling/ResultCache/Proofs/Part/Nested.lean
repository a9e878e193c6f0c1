import ResultCache.Part.Canonical
import ResultCache.Part.Hash
import ResultCache.Proofs.Json.Legible
import ResultCache.Proofs.Part.Integer

/-! Whole numbers of every width as parts, alone and in nested lists. The part is determined by the numbers
and their places, whatever their types are, and no two of them share one. -/
namespace ResultCache

theorem Text.integer_injective {m n : Int} (h : Text.integer m = Text.integer n) : m = n :=
  (Json.integer_legible m n [','] [','] (Json.delimited_comma _) (Json.delimited_comma _) (by rw [h])).1

namespace Part

/-- Whole numbers in nested lists, or one of them alone. -/
inductive Nested where
  | number (n : Int)
  | list (items : List Nested)

/-- The part of a whole number, or its decimal text if it is too great or too small for a signed word. -/
def ofInt (n : Int) : Part :=
  if -0x8000000000000000 ≤ n ∧ n < 0x8000000000000000 then int (Int64.ofInt n)
  else text (String.ofList (Text.integer n))

mutual

def ofNested : Nested → Part
  | .number n => ofInt n
  | .list items => list (ofNestedItems items)

def ofNestedItems : List Nested → List Part
  | [] => []
  | item :: items => ofNested item :: ofNestedItems items

end

/-- A value that stands for these numbers: a number of any width, a list of values of one type that each
stand for some, or a part that was made from such a value. Sizes are 64-bit words. -/
inductive MadeOf : {α : Type} → [ToPart α] → α → Nested → Prop
  | int8 (n : Int8) : MadeOf n (.number n.toInt)
  | int16 (n : Int16) : MadeOf n (.number n.toInt)
  | int32 (n : Int32) : MadeOf n (.number n.toInt)
  | int64 (n : Int64) : MadeOf n (.number n.toInt)
  | uint8 (n : UInt8) : MadeOf n (.number n.toNat)
  | uint16 (n : UInt16) : MadeOf n (.number n.toNat)
  | uint32 (n : UInt32) : MadeOf n (.number n.toNat)
  | uint64 (n : UInt64) : MadeOf n (.number n.toNat)
  | nil {α : Type} [ToPart α] : MadeOf ([] : List α) (.list [])
  | cons {α : Type} [ToPart α] {v : α} {values : List α} {item : Nested} {items : List Nested}
      (first : MadeOf v item) (rest : MadeOf values (.list items)) : MadeOf (v :: values) (.list (item :: items))
  | part {α : Type} [ToPart α] {v : α} {nested : Nested} (made : MadeOf v nested) : MadeOf (toPart v) nested

theorem int_eq_ofInt (n : Int64) : int n = ofInt n.toInt := by
  rw [ofInt, if_pos ⟨n.le_toInt, n.toInt_lt⟩, Int64.ofInt_toInt]

/-- Small natural numbers are numbers like all others, and great ones have the same decimal text. -/
theorem ofNat_eq_ofInt (n : Nat) : ofNat n = ofInt n := by
  rw [ofNat, ofInt, Text.integer_natCast]
  by_cases h : n < 0x8000000000000000
  · rw [if_pos h, if_pos (by omega), Int64.ofInt_eq_ofNat]
  · rw [if_neg h, if_neg (by omega)]

private theorem int_eq_ofInt_of_lt {n : Nat} (h : n < 0x8000000000000000) : int (Int64.ofNat n) = ofInt n := by
  rw [← ofNat_eq_ofInt, ofNat, if_pos h]

theorem ofInt_injective {m n : Int} (h : ofInt m = ofInt n) : m = n := by
  rw [ofInt, ofInt] at h
  split at h <;> split at h
  · next hm hn =>
    have hi := congrArg Int64.toInt (int.inj h)
    rwa [Int64.toInt_ofInt_of_le hm.1 hm.2, Int64.toInt_ofInt_of_le hn.1 hn.2] at hi
  · cases h
  · cases h
  · exact Text.integer_injective (String.ofList_inj.mp (text.inj h))

theorem ofInt_ne_list (n : Int) (items : List Part) : ofInt n ≠ list items := by
  rw [ofInt]
  split <;> exact Part.noConfusion

/-- On either side of the limits the readable text of a number is its decimal text. -/
theorem chars_ofInt (n : Int) : (ofInt n).chars = Text.integer n := by
  rw [ofInt]
  split
  · next h => rw [chars, write, Int64.toInt_ofInt_of_le h.1 h.2, List.append_nil]
  · rw [chars, write, String.toList_ofList, List.append_nil]

mutual

private theorem ofNested_injective : (m n : Nested) → ofNested m = ofNested n → m = n
  | .number m, .number n, h => congrArg Nested.number (ofInt_injective (by simpa only [ofNested] using h))
  | .number m, .list ns, h => (ofInt_ne_list m _ (by simpa only [ofNested] using h)).elim
  | .list ms, .number n, h => (ofInt_ne_list n _ (by simpa only [ofNested] using h.symm)).elim
  | .list ms, .list ns, h =>
    congrArg Nested.list (ofNestedItems_injective ms ns (list.inj (by simpa only [ofNested] using h)))

private theorem ofNestedItems_injective :
    (ms ns : List Nested) → ofNestedItems ms = ofNestedItems ns → ms = ns
  | [], [], _ => rfl
  | [], _ :: _, h => by simp [ofNestedItems] at h
  | _ :: _, [], h => by simp [ofNestedItems] at h
  | m :: ms, n :: ns, h => by
    obtain ⟨hfirst, hrest⟩ := List.cons.inj (by simpa only [ofNestedItems] using h)
    rw [ofNested_injective m n hfirst, ofNestedItems_injective ms ns hrest]

end

/-- The types of the numbers leave no trace in the part. -/
theorem MadeOf.toPart_eq {α : Type} [ToPart α] {v : α} {nested : Nested} (h : MadeOf v nested) :
    toPart v = ofNested nested := by
  induction h with
  | int8 n => exact (int_eq_ofInt n.toInt64).trans (congrArg ofInt n.toInt_toInt64)
  | int16 n => exact (int_eq_ofInt n.toInt64).trans (congrArg ofInt n.toInt_toInt64)
  | int32 n => exact (int_eq_ofInt n.toInt64).trans (congrArg ofInt n.toInt_toInt64)
  | int64 n => exact int_eq_ofInt n
  | uint8 n => exact int_eq_ofInt_of_lt (n.toNat_lt.trans (by decide))
  | uint16 n => exact int_eq_ofInt_of_lt (n.toNat_lt.trans (by decide))
  | uint32 n => exact int_eq_ofInt_of_lt (n.toNat_lt.trans (by decide))
  | uint64 n => exact ofNat_eq_ofInt n.toNat
  | nil => rfl
  | @cons _ _ v values item items _ _ hfirst hrest =>
    change list (toPart v :: values.map toPart) = list (ofNested item :: ofNestedItems items)
    rw [hfirst, list.inj hrest]
  | part _ h => exact h

/-- Two values made of whole numbers have equal parts exactly if they hold the same numbers at the same places,
whatever the types of the numbers are and however deep the lists. If they do, the parts have the same hash code,
the same readable text and the same canonical text; the readable text of a number alone is its decimal text. -/
theorem parts_tell_numbers {α β : Type} [ToPart α] [ToPart β] {v : α} {w : β} {m n : Nested}
    (hv : MadeOf v m) (hw : MadeOf w n) :
    ((toPart v == toPart w) = true ↔ m = n) ∧
      (m = n → (toPart v).hashCode = (toPart w).hashCode ∧ (toPart v).chars = (toPart w).chars ∧
        (toPart v).canonical = (toPart w).canonical) ∧
      ∀ a, m = .number a → (toPart v).chars = Text.integer a := by
  rw [hv.toPart_eq, hw.toPart_eq, beq_iff_eq]
  refine ⟨⟨ofNested_injective m n, congrArg ofNested⟩, ?_, ?_⟩
  · rintro rfl
    exact ⟨rfl, rfl, rfl⟩
  · rintro a rfl
    exact chars_ofInt a

/-- The greatest word and minus one, which share their bits, have different parts; two hundred has one part in
a list of bytes and in a list of words. -/
theorem parts_tell_numbers_of_shared_bits :
    (toPart [(0xFFFFFFFFFFFFFFFF : UInt64)] == toPart [(-1 : Int64)]) = false ∧
      (toPart [(200 : UInt8)] == toPart [(200 : UInt64)]) = true := by
  have hgreatest : MadeOf [(0xFFFFFFFFFFFFFFFF : UInt64)] (.list [.number 0xFFFFFFFFFFFFFFFF]) :=
    .cons (.uint64 _) .nil
  have hless : MadeOf [(-1 : Int64)] (.list [.number (-1)]) := .cons (.int64 _) .nil
  have hbyte : MadeOf [(200 : UInt8)] (.list [.number 200]) := .cons (.uint8 _) .nil
  have hword : MadeOf [(200 : UInt64)] (.list [.number 200]) := .cons (.uint64 _) .nil
  refine ⟨Bool.eq_false_iff.mpr fun h => ?_, (parts_tell_numbers hbyte hword).1.mpr rfl⟩
  have hsame := (parts_tell_numbers hgreatest hless).1.mp h
  cases hsame

end Part
end ResultCache
