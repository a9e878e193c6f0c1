import ResultCache.Yaml.Scalar
import ResultCache.Yaml.Tag
import ResultCache.Yaml.Token

/-!
Anchors, aliases and tags in front of a value, and the directives in front of a document.
-/

namespace ResultCache.Yaml

def endsAnchor (c : Option Char) : Bool :=
  endsWord c || c.any fun c => ['?', ':', ',', ']', '}', '%', '@', '\x60'].contains c

def anchorName? (c : Cursor) : Option (String × Cursor) :=
  let (name, c) := (c.advance 1).takeWhile isNameChar
  if name.isEmpty || !endsAnchor c.head? then none else some (String.ofList name, c)

/-- The characters of a tag. Commas and brackets only stand in one that is written in full. -/
def isTagChar (inFull : Bool) (c : Char) : Bool :=
  let marks := [';', '/', '?', ':', '@', '&', '=', '+', '$', '.', '%', '!', '~', '*', '\'', '(', ')']
  isNameChar c || marks.contains c || inFull && [',', '[', ']'].contains c

def escapedByte? : List Char → Option (Nat × List Char)
  | '%' :: a :: b :: rest => do return (16 * (← hexDigit? a) + (← hexDigit? b), rest)
  | _ => none

/-- The number of bytes that follow the first one of a character. -/
def followers? (n : Nat) : Option Nat :=
  if n < 0x80 then some 0
  else if n / 0x20 = 6 then some 1
  else if n / 0x10 = 14 then some 2
  else if n / 0x08 = 30 then some 3
  else none

def nextBytes? : Nat → List Char → Option (List UInt8 × List Char)
  | 0, text => some ([], text)
  | count + 1, text => do
    let (byte, text) ← escapedByte? text
    if byte / 0x40 ≠ 2 then failure
    let (bytes, text) ← nextBytes? count text
    return (UInt8.ofNat byte :: bytes, text)

/-- Reads the escapes of one character. Its bytes have to follow each other as in UTF-8, but they
need not stand for any character. -/
def escapedBytes? (text : List Char) : Option (List UInt8 × List Char) := do
  let (byte, text) ← escapedByte? text
  let (bytes, text) ← nextBytes? (← followers? byte) text
  return (UInt8.ofNat byte :: bytes, text)

def tagBytes? (inFull : Bool) : Nat → Array UInt8 → Cursor → Option (Array UInt8 × Cursor)
  | 0, _, _ => none
  | steps + 1, bytes, c =>
    match c.head? with
    | none => some (bytes, c)
    | some d =>
      if d = '%' then do
        let (escaped, _) ← escapedBytes? c.rest
        tagBytes? inFull steps (bytes ++ escaped) (c.advance (3 * escaped.length))
      else if isTagChar inFull d then
        tagBytes? inFull steps (bytes.push d.toUInt8) (c.advance 1)
      else some (bytes, c)

/-- Reads a tag or its end. `head` is what was read of it already, with the mark in front; without
any it may not be empty. -/
def tagText? (inFull : Bool) (head : List Char) (c : Cursor) : Option (List UInt8 × Cursor) := do
  let (bytes, c) ← tagBytes? inFull (c.size + 1) #[] c
  if bytes.isEmpty && head.isEmpty then failure
  return (Tag.beforeZero (Tag.asciiBytes (head.drop 1) ++ bytes.toList), c)

def tagHandle? (c : Cursor) : Option (List Char × Cursor) :=
  if c.head? ≠ some '!' then none
  else
    let (name, c) := (c.advance 1).takeWhile isNameChar
    if c.head? = some '!' then some ('!' :: name ++ ['!'], c.advance 1) else some ('!' :: name, c)

def isClosedHandle (handle : List Char) : Bool :=
  1 < handle.length && handle.getLast? == some '!'

def fullTag? (c : Cursor) : Option (Token × Cursor) := do
  let (text, c) ← tagText? true [] (c.advance 2)
  if c.head? ≠ some '>' then failure
  return (.tag "" text, c.advance 1)

/-- Reads a tag with a handle. What looks like a handle but does not end like one is part of a
local tag, and a mark alone is a tag of its own. -/
def handledTag? (c : Cursor) : Option (Token × Cursor) := do
  let (handle, c) ← tagHandle? c
  if isClosedHandle handle then
    let (text, c) ← tagText? false [] c
    return (.tag (String.ofList handle) text, c)
  else
    let (text, c) ← tagText? false handle c
    if text.isEmpty then return (.tag "" (Tag.named "!").bytes, c)
    else return (.tag "!" text, c)

def tag? (inFlow : Bool) (c : Cursor) : Option (Token × Cursor) := do
  let (token, c) ← if c.ahead? 1 = some '<' then fullTag? c else handledTag? c
  if endsWord c.head? || inFlow && c.head? == some ',' then return (token, c) else failure

def versionNumber? (c : Cursor) : Option (Nat × Cursor) :=
  let (digits, c) := c.takeWhile Char.isDigit
  if digits.isEmpty || 9 < digits.length then none
  else some (digits.foldl (fun n d => 10 * n + (d.toNat - '0'.toNat)) 0, c)

def version? (c : Cursor) : Option (Token × Cursor) := do
  let (major, c) ← versionNumber? (c.dropWhile isBlank)
  if c.head? ≠ some '.' then failure
  let (minor, c) ← versionNumber? (c.advance 1)
  return (.version major minor, c)

def shorthand? (c : Cursor) : Option (Token × Cursor) := do
  let (handle, c) ← tagHandle? (c.dropWhile isBlank)
  if handle ≠ ['!'] && !isClosedHandle handle then failure
  if !c.head?.any isBlank then failure
  let (text, c) ← tagText? true [] (c.dropWhile isBlank)
  if !endsWord c.head? then failure
  return (.shorthand (String.ofList handle) text, c)

def directive? (c : Cursor) : Option (Token × Cursor) := do
  let (name, c) := (c.advance 1).takeWhile isNameChar
  if !endsWord c.head? then failure
  let (token, c) ← match String.ofList name with
    | "YAML" => version? c
    | "TAG" => shorthand? c
    | _ => none
  return (token, ← c.finishLine?)

end ResultCache.Yaml
