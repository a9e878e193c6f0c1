/-!
Blank characters, that is those with the Unicode property White_Space. A text is blank when it
holds nothing else, so the empty text is blank.
-/

namespace ResultCache.Text

/-- The ranges of code points with the property White_Space, both ends included, in ascending
order. -/
def blankRanges : List (Nat × Nat) :=
  [(0x9, 0xD), (0x20, 0x20), (0x85, 0x85), (0xA0, 0xA0), (0x1680, 0x1680), (0x2000, 0x200A),
    (0x2028, 0x2029), (0x202F, 0x202F), (0x205F, 0x205F), (0x3000, 0x3000)]

def isBlank (c : Char) : Bool :=
  blankRanges.any fun range => range.1 ≤ c.toNat && c.toNat ≤ range.2

/-- Nothing is left of a blank text once both its ends are trimmed. -/
def allBlank (text : String) : Bool := text.toList.all isBlank

/-- The ASCII blanks of the core library are among the blank characters. -/
theorem isBlank_of_isWhitespace {c : Char} (h : c.isWhitespace = true) : isBlank c = true := by
  simp only [Char.isWhitespace, Bool.or_eq_true, decide_eq_true_eq] at h
  rcases h with ((rfl | rfl) | rfl) | rfl <;> rfl

example : (blankRanges.map fun range => range.2 + 1 - range.1).sum = 25 := rfl
example : allBlank "\u2003 \t" = true := by decide
example : allBlank "\u200b" = false := by decide

end ResultCache.Text
