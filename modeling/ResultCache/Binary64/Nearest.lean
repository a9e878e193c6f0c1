import ResultCache.Binary64.Basic

/-!
Rounding of exact fractions to the nearest 64-bit number. A fraction half way between two numbers
goes to the one with the even mantissa, and one beyond the greatest number to infinity.
-/

namespace ResultCache.Binary64

/-- The whole number nearest to a fraction, the even one of two that are equally near. -/
def roundDiv (num den : Nat) : Nat :=
  let rest := num % den
  if 2 * rest < den then num / den
  else if den < 2 * rest then num / den + 1
  else num / den + num / den % 2

def scale (num den : Nat) (power : Int) : Nat × Nat :=
  (num * Nat.pow 2 power.toNat, den * Nat.pow 2 (-power).toNat)

/-- The exponent that gives the mantissa of a positive fraction fifty-three bits, or the least one
when that would be below it. -/
def exponentOf (num den : Nat) : Int :=
  let guess : Int := num.log2 - den.log2 - 52
  let scaled := scale num den (-guess)
  let exponent := if scaled.1 < scaled.2 * binade then guess - 1 else guess
  if exponent < leastExponent then leastExponent else exponent

/-- A mantissa that rounds up to fifty-four bits carries into the next binade by itself. -/
def nearestMagnitude (num den : Nat) : Nat :=
  if num = 0 then 0
  else
    let exponent := exponentOf num den
    let scaled := scale num den (-exponent)
    Nat.min infiniteMagnitude
      ((exponent - leastExponent).toNat * binade + roundDiv scaled.1 scaled.2)

def ofRatio (num den : Nat) : Binary64 := ofMagnitude false (nearestMagnitude num den)

def ofNat (n : Nat) : Binary64 := ofRatio n 1

def ratio (x : Binary64) : Nat × Nat :=
  let (mantissa, exponent) := scientific x.magnitude
  scale mantissa 1 exponent

/-- The rounded product of the magnitudes of two finite numbers. -/
def times (x y : Binary64) : Binary64 :=
  ofRatio (x.ratio.1 * y.ratio.1) (x.ratio.2 * y.ratio.2)

def dividedBy (x y : Binary64) : Binary64 :=
  ofRatio (x.ratio.1 * y.ratio.2) (x.ratio.2 * y.ratio.1)

example : (ofRatio 1 10).bits = 0x3FB999999999999A := by decide +kernel
example : (ofNat 0x20000000000001).bits = 0x4340000000000000 := by decide +kernel
example : (ofRatio 1 (Nat.pow 2 1075)).bits = 0 := by decide +kernel
example : (ofRatio 3 (Nat.pow 2 1075)).bits = 2 := by decide +kernel
example : (ofNat (Nat.pow 2 1024)).bits = 0x7FF0000000000000 := by decide +kernel

end ResultCache.Binary64
