/-! The UTF-16 code units of a text: one for a character of the basic plane, two for any other. -/

namespace ResultCache.Text

def unitsOf (c : Char) : List Nat :=
  if c.toNat < 0x10000 then [c.toNat]
  else [0xD800 + (c.toNat - 0x10000) / 0x400, 0xDC00 + (c.toNat - 0x10000) % 0x400]

def units (text : String) : List Nat := text.toList.flatMap unitsOf

/-- Every code unit fits in sixteen bits. -/
theorem lt_of_mem_unitsOf {c : Char} {u : Nat} (h : u ∈ unitsOf c) : u < 0x10000 := by
  have valid : c.toNat < 0x110000 := by
    have := c.valid
    simp only [UInt32.isValidChar, Nat.isValidChar] at this
    simp only [Char.toNat]
    omega
  unfold unitsOf at h
  split at h <;> simp only [List.mem_cons, List.not_mem_nil, or_false] at h <;> omega

example : units "a😀" = [0x61, 0xD83D, 0xDE00] := by decide

end ResultCache.Text
