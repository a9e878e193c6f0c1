import ResultCache.Binary64.Shortest

/-!
Texts of 64-bit numbers. Both styles write the shortest digits: the plain one never has an
exponent, and the JSON one keeps a point in every number and writes the very large and the very
small ones with an exponent.
-/

namespace ResultCache.Binary64

/-- What a way of writing numbers is free to choose. -/
structure Style where
  tie : Tie
  /-- The points that are written with digits alone; other numbers get an exponent. -/
  positional : Int → Bool
  /-- Written after the digits of a whole number in positional form. -/
  wholeMark : List Char
  nan : List Char
  infinite : Bool → List Char

/-- Plain numbers have no exponent and no point after a whole number. -/
def plainStyle : Style where
  tie := .up
  positional := fun _ => true
  wholeMark := []
  nan := ['N', 'a', 'N']
  infinite := fun negative => if negative then ['-', 'i', 'n', 'f'] else ['i', 'n', 'f']

/-- JSON numbers have an exponent below 10^-5 and from 10^16 on, and what JSON has no number for
is null. -/
def jsonStyle : Style where
  tie := .even
  positional := fun point => -5 < point && point ≤ 16
  wholeMark := ['.', '0']
  nan := ['n', 'u', 'l', 'l']
  infinite := fun _ => ['n', 'u', 'l', 'l']

/-- The digits around the point, with zeros where the point stands outside of them. -/
def Decimal.positional (d : Decimal) (wholeMark : List Char) : List Char :=
  if d.point ≤ 0 then '0' :: '.' :: List.replicate (-d.point).toNat '0' ++ d.digits
  else
    let before := d.point.toNat
    if d.digits.length ≤ before then
      d.digits ++ List.replicate (before - d.digits.length) '0' ++ wholeMark
    else d.digits.take before ++ '.' :: d.digits.drop before

def signedText (n : Int) : List Char :=
  (if n < 0 then '-' else '+') :: Nat.toDigits 10 n.natAbs

def Decimal.scientific (d : Decimal) : List Char :=
  let fraction := d.digits.drop 1
  d.digits.take 1 ++ (if fraction.isEmpty then [] else '.' :: fraction) ++
    'e' :: signedText (d.point - 1)

def Decimal.text (style : Style) (d : Decimal) : List Char :=
  if style.positional d.point then d.positional style.wholeMark else d.scientific

/-- The text of a number. Zero keeps its sign, and NaN has none. -/
def text (style : Style) (x : Binary64) : List Char :=
  match x.shape with
  | .nan => style.nan
  | .infinite negative => style.infinite negative
  | .finite negative mantissa exponent =>
    let digits := if mantissa = 0 then ⟨['0'], 1⟩ else shortest style.tie mantissa exponent
    (if negative then ['-'] else []) ++ digits.text style

def plainText (x : Binary64) : String := String.ofList (x.text plainStyle)

end ResultCache.Binary64
