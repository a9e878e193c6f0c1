import ResultCache.Part

/-! Numbers as parts. No two numbers share a part, on either side of the limit beyond which a number
keeps its decimal text. -/
namespace ResultCache

theorem Text.natural_injective {m n : Nat} (h : Text.natural m = Text.natural n) : m = n := by
  have hd := congrArg (Nat.ofDigitChars 10 · 0) h
  simpa only [Text.natural, Nat.ofDigitChars_ten_toDigits] using hd

namespace Part

theorem ofNat_injective {m n : Nat} (h : ofNat m = ofNat n) : m = n := by
  rw [ofNat, ofNat] at h
  split at h <;> split at h
  · next hm hn =>
    have hi := congrArg Int64.toInt (int.inj h)
    rw [Int64.toInt_ofNat_of_lt hm, Int64.toInt_ofNat_of_lt hn] at hi
    exact Int.ofNat.inj hi
  · cases h
  · cases h
  · exact Text.natural_injective (String.ofList_inj.mp (text.inj h))

theorem toPart_word_injective {m n : UInt64} (h : toPart m = toPart n) : m = n :=
  UInt64.toNat_inj.mp (ofNat_injective h)

end Part
end ResultCache
