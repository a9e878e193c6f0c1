import ResultCache.Binary64.Nearest
import ResultCache.Json

/-!
The values of JSON number literals. A literal gives a significand of at most 64 bits and a power
of ten; the two are multiplied or divided in 64-bit floating point, so a literal with very many
digits or a great exponent may be off by a unit in its last place.
-/

namespace ResultCache.Json

/-- The pieces of a number literal. -/
structure Literal where
  negative : Bool
  whole : List Nat
  /-- The digits after the point, if there is one. -/
  fraction : Option (List Nat)
  exponent : Option Int

/-- Appends digits to a significand as long as it fits in 64 bits. The second component counts the
digits that were used. -/
def absorb (significand : Nat) : List Nat → Nat × Nat
  | [] => (significand, 0)
  | digit :: digits =>
    let next := 10 * significand + digit
    if next < 0x10000000000000000 then
      let (result, used) := absorb next digits
      (result, used + 1)
    else (significand, 0)

/-- The greatest power of ten below the greatest number. -/
def greatestPower : Nat := 308

/-- The rounded product of a number and a power of ten, if it is finite. Small powers are divided
off in steps; nothing is left of a significand after three of them. -/
def scaleByTen : Nat → Binary64 → Int → Option Binary64
  | 0, _, _ => some (Binary64.ofNat 0)
  | steps + 1, x, power =>
    if power.natAbs ≤ greatestPower then
      let factor := Binary64.ofNat (Nat.pow 10 power.natAbs)
      if 0 ≤ power then
        let product := x.times factor
        if product.isFinite then some product else none
      else some (x.dividedBy factor)
    else if x.magnitude = 0 then some x
    else if 0 ≤ power then none
    else
      scaleByTen steps (x.dividedBy (Binary64.ofNat (Nat.pow 10 greatestPower)))
        (power + greatestPower)

namespace Literal

/-- The value as a rounded number, if it is in range. -/
def float? (literal : Literal) : Option Binary64 :=
  let (head, used) := absorb 0 literal.whole
  let dropped := literal.whole.length - used
  let (significand, places) := absorb head (literal.fraction.getD [])
  let power : Int := dropped - places + literal.exponent.getD 0
  (scaleByTen 4 (Binary64.ofNat significand) power).map fun x =>
    if literal.negative then x.negate else x

/-- A literal without a point and an exponent is a whole number if it fits. There is no whole
number for negative zero. -/
def number? (literal : Literal) : Option Number :=
  let (n, used) := absorb 0 literal.whole
  let isWhole := literal.fraction.isNone && literal.exponent.isNone &&
    used == literal.whole.length && (!literal.negative || (0 < n && n ≤ 0x8000000000000000))
  if isWhole then some (.whole (if literal.negative then -n else n))
  else literal.float?.map .float

end Literal
end ResultCache.Json
