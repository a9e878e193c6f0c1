import ResultCache.Binary64.Basic

/-!
Widening from the 32-bit binary floating-point format. Every number of that format is also one of
the 64-bit format, so nothing is rounded; a NaN becomes quiet and keeps the rest of its payload.
-/

namespace ResultCache.Binary64

/-- The magnitude of the fraction · 2^-149 with a fraction below 2^23. The leading bit moves into
the exponent. -/
def widenSubnormal (fraction : Nat) : Nat :=
  if fraction = 0 then 0
  else (fraction.log2 + 874) * binade +
    (fraction - Nat.pow 2 fraction.log2) * Nat.pow 2 (52 - fraction.log2)

/-- How many 64-bit magnitudes there are for each 32-bit one of the normal range. -/
abbrev spread : Nat := 0x20000000

def ofSingle (bits : UInt32) : Binary64 :=
  let magnitude := bits.toNat % 0x80000000
  let exponent := magnitude / 0x800000
  let fraction := magnitude % 0x800000
  ofMagnitude (0x80000000 ≤ bits.toNat)
    (if exponent = 0xFF then
      if fraction = 0 then infiniteMagnitude
      else infiniteMagnitude + (fraction ||| 0x400000) * spread
    else if exponent = 0 then widenSubnormal fraction
    else (exponent + 896) * binade + fraction * spread)

example : (ofSingle 0x3F800000).bits = 0x3FF0000000000000 := by decide +kernel
example : (ofSingle 0x00000001).bits = 0x36A0000000000000 := by decide +kernel
example : (ofSingle 0xFF800000).bits = 0xFFF0000000000000 := by decide +kernel

end ResultCache.Binary64
