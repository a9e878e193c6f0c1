import ResultCache.Binary64.Basic

/-!
Shortest decimal digits of a 64-bit number: the fewest digits that read back as the same number,
and of those with that many digits the ones nearest to it. All comparisons are exact.
-/

namespace ResultCache.Binary64

/-- Which of two equally near decimals is taken. -/
inductive Tie where
  | up
  | even
  deriving DecidableEq

/-- The decimal 0.d₁d₂… · 10^point. -/
structure Decimal where
  digits : List Char
  point : Int
  deriving DecidableEq

/-- The decimals that read back as one positive number lie between two bounds. Value and bounds
are counted in quarters of the number's last place; below a power of two the gap is half as wide.
The bounds themselves read back as the number when its mantissa is even. -/
structure Interval where
  low : Nat
  value : Nat
  high : Nat
  closed : Bool
  /-- A quarter of the last place is 2^power. -/
  power : Int

def interval (mantissa : Nat) (exponent : Int) : Interval where
  low := 4 * mantissa - if mantissa = binade ∧ leastExponent < exponent then 1 else 2
  value := 4 * mantissa
  high := 4 * mantissa + 2
  closed := mantissa % 2 = 0
  power := exponent - 2

/-- The multiple of 10^place nearest to the value, if one lies in the interval. Only the two
neighbours of the value have to be tried, because the interval has no holes. -/
def Interval.onGrid? (tie : Tie) (i : Interval) (place : Int) : Option Nat :=
  let scale := Nat.pow 2 i.power.toNat * Nat.pow 10 (-place).toNat
  let unit := Nat.pow 10 place.toNat * Nat.pow 2 (-i.power).toNat
  let value := i.value * scale
  let below := value / unit
  let above := below + 1
  let lowFits := if i.closed then i.low * scale ≤ below * unit else i.low * scale < below * unit
  let highFits := if i.closed then above * unit ≤ i.high * scale else above * unit < i.high * scale
  let rest := 2 * (value % unit)
  let upIsNearer := unit < rest ∨ unit = rest ∧ (tie = .up ∨ below % 2 = 1)
  if lowFits ∧ highFits then some (if upIsNearer then above else below)
  else if lowFits then some below
  else if highFits then some above
  else none

def Decimal.ofNat (n : Nat) (place : Int) : Decimal :=
  let digits := Nat.toDigits 10 n
  ⟨(digits.reverse.dropWhile (· == '0')).reverse, digits.length + place⟩

def isBelow (mantissa : Nat) (exponent point : Int) : Bool :=
  mantissa * Nat.pow 2 exponent.toNat * Nat.pow 10 (-point).toNat <
    Nat.pow 10 point.toNat * Nat.pow 2 (-exponent).toNat

/-- How many digits stand before the point of a positive number. None or fewer stand there for a
number below one tenth. The binary logarithm, of which 0.30103 make a decimal one, leaves three
points to choose from. -/
def pointOf (mantissa : Nat) (exponent : Int) : Int :=
  let least := (mantissa.log2 + exponent) * 30103 / 100000
  if isBelow mantissa exponent least then least
  else if isBelow mantissa exponent (least + 1) then least + 1
  else least + 2

def exactDecimal (mantissa : Nat) (exponent : Int) : Decimal :=
  Decimal.ofNat (mantissa * Nat.pow 2 exponent.toNat * Nat.pow 5 (-exponent).toNat)
    (if exponent < 0 then exponent else 0)

/-- The shortest decimal of a positive number. The grids get finer one digit at a time, and the
first one with a point in the interval decides. -/
def shortest (tie : Tie) (mantissa : Nat) (exponent : Int) : Decimal :=
  let bounds := interval mantissa exponent
  let point := pointOf mantissa exponent
  let found := (List.range 17).findSome? fun (n : Nat) =>
    let place : Int := point - 1 - n
    (bounds.onGrid? tie place).map (Decimal.ofNat · place)
  found.getD (exactDecimal mantissa exponent)

end ResultCache.Binary64
