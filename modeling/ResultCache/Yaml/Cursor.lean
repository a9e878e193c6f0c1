/-!
A place in a YAML text: what is left to read, and where that stands. Lines end with a carriage
return, a line feed, both together, or one of the three other line breaks of Unicode.
-/

namespace ResultCache.Yaml

def isAllowed (c : Char) : Bool :=
  c == '\t' || c == '\n' || c == '\r' || (' ' ≤ c && c ≤ '~') || c == '\x85' ||
    ('\u00a0' ≤ c && c ≤ '\ufffd') || 0x10000 ≤ c.toNat

def isBreak (c : Char) : Bool :=
  c == '\r' || c == '\n' || c == '\x85' || c == '\u2028' || c == '\u2029'

def isBlank (c : Char) : Bool := c == ' ' || c == '\t'

/-- Whether a word ends before this character or before the end of the text. -/
def endsWord (c : Option Char) : Bool := c.all fun c => isBlank c || isBreak c

def isNameChar (c : Char) : Bool := c.isAlphanum || c == '_' || c == '-'

def byteCount (text : List Char) : Nat := text.foldl (fun n c => n + c.utf8Size) 0

structure Cursor where
  rest : List Char
  /-- The number of characters of the whole text. -/
  size : Nat
  /-- The number of bytes in front. -/
  index : Nat := 0
  line : Nat := 0
  column : Nat := 0

namespace Cursor

def head? (c : Cursor) : Option Char := c.rest.head?

def ahead? (c : Cursor) (n : Nat) : Option Char := c.rest[n]?

/-- Moves on by some characters of the same line. -/
def advance (c : Cursor) (n : Nat) : Cursor :=
  { c with
    rest := c.rest.drop n
    index := c.index + byteCount (c.rest.take n)
    column := c.column + n }

def takeWhile (c : Cursor) (p : Char → Bool) : List Char × Cursor :=
  let taken := c.rest.takeWhile p
  (taken, c.advance taken.length)

def dropWhile (c : Cursor) (p : Char → Bool) : Cursor := (c.takeWhile p).2

def newLine (c : Cursor) (n : Nat) : Cursor :=
  { c with
    rest := c.rest.drop n
    index := c.index + byteCount (c.rest.take n)
    line := c.line + 1
    column := 0 }

/-- Reads a line break. All but the line and paragraph separators are read as a line feed. -/
def takeBreak (c : Cursor) : List Char × Cursor :=
  match c.rest with
  | '\r' :: '\n' :: _ => (['\n'], c.newLine 2)
  | '\u2028' :: _ => (['\u2028'], c.newLine 1)
  | '\u2029' :: _ => (['\u2029'], c.newLine 1)
  | [] => ([], c)
  | _ :: _ => (['\n'], c.newLine 1)

/-- Whether a line starts here with three of the given characters that stand alone. -/
def atMark (c : Cursor) (mark : Char) : Bool :=
  c.column == 0 && c.rest.take 3 == [mark, mark, mark] && endsWord (c.ahead? 3)

def atDocumentMark (c : Cursor) : Bool := c.atMark '-' || c.atMark '.'

def skipComment (c : Cursor) : Cursor :=
  if c.head? = some '#' then c.dropWhile (!isBreak ·) else c

def finishLine? (c : Cursor) : Option Cursor :=
  let c := (c.dropWhile isBlank).skipComment
  match c.head? with
  | none => some c
  | some d => if isBreak d then some c.takeBreak.2 else none

end Cursor
end ResultCache.Yaml
