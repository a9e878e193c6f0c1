/-!
Numbers of the 64-bit binary floating-point format, kept as their bits. Two of them are the same
exactly when their bits agree, so zero has two forms and every payload of NaN stands for itself.
-/

namespace ResultCache

structure Binary64 where
  bits : UInt64
  deriving DecidableEq, Inhabited

namespace Binary64

/-- What the bits stand for. A finite number is mantissa · 2^exponent with the sign in front. -/
inductive Shape where
  | nan
  | infinite (negative : Bool)
  | finite (negative : Bool) (mantissa : Nat) (exponent : Int)
  deriving DecidableEq

/-- How many magnitudes there are between two powers of two, which share an exponent. -/
abbrev binade : Nat := 0x10000000000000

/-- What the sign bit adds to the magnitude of a negative number. -/
abbrev signUnit : Nat := 0x8000000000000000

/-- The least exponent of a finite number, also that of the numbers below the normal range. -/
def leastExponent : Int := -1074

/-- The magnitude that stands for infinity; NaN has the greater ones. -/
def infiniteMagnitude : Nat := 0x7FF * binade

def negative (x : Binary64) : Bool := signUnit ≤ x.bits.toNat

/-- The bits without the sign. Magnitudes of finite numbers are ordered as the numbers are. -/
def magnitude (x : Binary64) : Nat := x.bits.toNat % signUnit

def ofMagnitude (negative : Bool) (magnitude : Nat) : Binary64 :=
  ⟨UInt64.ofNat (magnitude % signUnit + if negative then signUnit else 0)⟩

def negate (x : Binary64) : Binary64 := ofMagnitude (!x.negative) x.magnitude

/-- The mantissa and exponent of a finite magnitude. The numbers below the normal range share the
least exponent with the first binade above it. -/
def scientific (magnitude : Nat) : Nat × Int :=
  let fraction := magnitude % binade
  match magnitude / binade with
  | 0 => (fraction, leastExponent)
  | n + 1 => (binade + fraction, leastExponent + n)

def shape (x : Binary64) : Shape :=
  if infiniteMagnitude < x.magnitude then .nan
  else if x.magnitude = infiniteMagnitude then .infinite x.negative
  else .finite x.negative (scientific x.magnitude).1 (scientific x.magnitude).2

def isFinite (x : Binary64) : Bool := x.magnitude < infiniteMagnitude

theorem magnitude_lt (x : Binary64) : x.magnitude < signUnit := Nat.mod_lt _ (by decide)

/-- Sign and magnitude together are the whole number. -/
theorem ofMagnitude_negative_magnitude (x : Binary64) :
    ofMagnitude x.negative x.magnitude = x := by
  obtain ⟨bits⟩ := x
  have bound := bits.toNat_lt
  simp only [ofMagnitude, negative, magnitude, signUnit, Binary64.mk.injEq, decide_eq_true_eq]
  apply UInt64.toNat_inj.mp
  rw [UInt64.toNat_ofNat']
  split <;> omega

end Binary64
end ResultCache
