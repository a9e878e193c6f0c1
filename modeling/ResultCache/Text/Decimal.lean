/-! Whole numbers in decimal: no leading zeros, no separators, and a sign only when negative. -/

namespace ResultCache.Text

def natural (n : Nat) : List Char := Nat.toDigits 10 n

def integer (n : Int) : List Char :=
  (if n < 0 then ['-'] else []) ++ natural n.natAbs

example : integer (-120) = ['-', '1', '2', '0'] := by decide

end ResultCache.Text
