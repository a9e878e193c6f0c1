import ResultCache.Binary64.Nearest
import ResultCache.Yaml.Scalar
import ResultCache.Yaml.Tag
import ResultCache.Yaml.Token

/-!
The values that scalars stand for. Only a plain scalar or one with a tag for it can be anything but
a text. Whole numbers may be written with a base and a sign, but not with leading zeros.
-/

namespace ResultCache.Yaml

inductive Value where
  | null
  | bool (b : Bool)
  /-- A whole number that fits in 64 bits without a sign. -/
  | unsigned (n : Nat)
  /-- A number written with a minus that fits in 64 bits with a sign. -/
  | negative (n : Nat)
  /-- A whole number that needs up to 128 bits. -/
  | wide
  | float
  | text (s : String)
  deriving DecidableEq

def isNull (s : String) : Bool := ["null", "Null", "NULL", "~"].contains s

def bool? (s : String) : Option Bool :=
  if ["true", "True", "TRUE"].contains s then some true
  else if ["false", "False", "FALSE"].contains s then some false
  else none

def inBase? (base : Nat) (digits : List Char) : Option Nat := do
  let values ← digits.mapM hexDigit?
  if values.isEmpty || values.any (base ≤ ·) then failure
  return values.foldl (fun n value => base * n + value) 0

def hasLeadingZeros (text : List Char) : Bool :=
  let digits := match text with
    | '+' :: rest => rest
    | '-' :: rest => rest
    | _ => text
  digits.head? == some '0' && 1 < digits.length && digits.all Char.isDigit

def magnitude? (text : List Char) : Option Nat :=
  match text with
  | '0' :: 'x' :: digits => inBase? 16 digits
  | '0' :: 'o' :: digits => inBase? 8 digits
  | '0' :: 'b' :: digits => inBase? 2 digits
  | digits => if hasLeadingZeros digits then none else inBase? 10 digits

/-- The whole number that a text stands for, if it fits in 128 bits. -/
def whole? (text : List Char) : Option Value := do
  match text with
  | '-' :: digits =>
    let n ← magnitude? digits
    if n ≤ 0x8000000000000000 then return .negative n
    if n ≤ 0x80000000000000000000000000000000 then return .wide else failure
  | _ =>
    let n ← magnitude? (if text.head? = some '+' then text.drop 1 else text)
    if n < 0x10000000000000000 then return .unsigned n
    if n < 0x100000000000000000000000000000000 then return .wide else failure

/-- Whether a decimal number rounds to a finite one. Those far from the limit need no rounding. -/
def isInRange (digits : List Char) (exponent : Int) : Bool :=
  let significant := digits.dropWhile (· == '0')
  let magnitude : Int := significant.length + exponent
  if significant.isEmpty || magnitude < 300 then true
  else if 310 < magnitude then false
  else
    let n := significant.foldl (fun n d => 10 * n + (d.toNat - '0'.toNat)) 0
    (Binary64.ofRatio (n * Nat.pow 10 exponent.toNat) (Nat.pow 10 (-exponent).toNat)).isFinite

def exponent? (text : List Char) : Option Int :=
  match text with
  | [] => some 0
  | e :: rest =>
    if e ≠ 'e' ∧ e ≠ 'E' then none
    else
      let digits := if rest.head? = some '+' ∨ rest.head? = some '-' then rest.drop 1 else rest
      (inBase? 10 digits).map fun n => if rest.head? = some '-' then -n else n

def isFiniteDecimal (text : List Char) : Bool :=
  let whole := text.takeWhile Char.isDigit
  let rest := text.dropWhile Char.isDigit
  let afterPoint := if rest.head? = some '.' then rest.drop 1 else []
  let fraction := afterPoint.takeWhile Char.isDigit
  let rest := if rest.head? = some '.' then afterPoint.dropWhile Char.isDigit else rest
  match exponent? rest with
  | none => false
  | some exponent =>
    !(whole ++ fraction).isEmpty && isInRange (whole ++ fraction) (exponent - fraction.length)

def isFloat (s : String) : Bool :=
  let text := s.toList
  let signed := text.head? = some '+' ∨ text.head? = some '-'
  let plain := if signed then text.drop 1 else text
  let word := String.ofList plain
  [".inf", ".Inf", ".INF"].contains word || [".nan", ".NaN", ".NAN"].contains s ||
    isFiniteDecimal plain

def plainValue (s : String) : Value :=
  if s.isEmpty || isNull s then .null
  else match bool? s, whole? s.toList with
  | some b, _ => .bool b
  | none, some n => n
  | none, none => if !hasLeadingZeros s.toList && isFloat s then .float else .text s

/-- What a scalar stands for. A tag for a type has to fit, and a local one is not understood. A
marked tag that is not local counts only in so far as the scalar is not plain. -/
def scalarValue? (tag : Option Tag) (style : Style) (s : String) : Option Value :=
  match tag with
  | none => some (if style = .plain then plainValue s else .text s)
  | some tag =>
    if tag.isLocal then none
    else if tag = .null then if isNull s then some .null else none
    else if tag = .bool then (bool? s).map .bool
    else if tag = .int then whole? s.toList
    else if tag = .float then if isFloat s then some .float else none
    else some (if tag.isMarked && style = .plain then plainValue s else .text s)

end ResultCache.Yaml
