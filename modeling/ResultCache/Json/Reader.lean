import ResultCache.Json.Fault
import ResultCache.Json.Number

/-!
Reading JSON. A reader takes what it reads from the front of a text, and the first problem that it
meets decides how it fails. Values that nobody asked for are only skipped, which takes some texts
that are not accepted as values.
-/

namespace ResultCache.Json

/-- Readers hand on what is left of a text, and know how many characters the whole text has. -/
abbrev Reader := ReaderT Nat (StateT (List Char) (Except Fault))

namespace Reader

def depthLimit : Nat := 127

def isSpace (c : Char) : Bool := c == ' ' || c == '\n' || c == '\t' || c == '\r'

def peek : Reader (Option Char) := return (← get).head?

def peekSolid : Reader (Option Char) := do
  modify (·.dropWhile isSpace)
  peek

def advance : Reader Unit := modify List.tail

def expect : List Char → Reader Unit
  | [] => pure ()
  | c :: cs => do
    match ← peek with
    | none => throw .truncated
    | some d =>
      if c = d then do
        advance
        expect cs
      else throw .malformed

def digits : Reader (List Nat) := do
  let text ← get
  set (text.dropWhile Char.isDigit)
  return (text.takeWhile Char.isDigit).map fun c => c.toNat - '0'.toNat

/-- Reads digits of which there must be one. `onEnd` is the fault of a text that ends here. -/
def someDigits (onEnd : Fault) : Reader (List Nat) := do
  let read ← digits
  if read.isEmpty then
    match ← peek with
    | none => throw onEnd
    | some _ => throw .malformed
  else return read

/-- The digits before the point. Nothing follows a zero in front. -/
def wholeDigits (onEnd : Fault) : Reader (List Nat) := do
  let read ← someDigits onEnd
  if read.head? = some 0 ∧ read.length ≠ 1 then throw .malformed
  return read

def fraction (onEnd : Fault) : Reader (Option (List Nat)) := do
  if (← peek) = some '.' then
    advance
    return some (← someDigits onEnd)
  else return none

def sign : Reader Bool := do
  match ← peek with
  | some '-' =>
    advance
    return true
  | some '+' =>
    advance
    return false
  | _ => return false

def exponent (onEnd : Fault) : Reader (Option Int) := do
  match ← peek with
  | some 'e' | some 'E' =>
    advance
    let negative ← sign
    let n : Nat := (← someDigits onEnd).foldl (fun n digit => 10 * n + digit) 0
    return some (if negative then -n else n)
  | _ => return none

def literal (onEnd : Fault) : Reader Literal := do
  let negative := (← peek) = some '-'
  if negative then advance
  let whole ← wholeDigits onEnd
  let fraction ← fraction onEnd
  let exponent ← exponent onEnd
  return { negative, whole, fraction, exponent }

/-- A number out of range is malformed. -/
def number : Reader Number := do
  match (← literal .truncated).number? with
  | some n => return n
  | none => throw .malformed

def hexValue? (c : Char) : Option Nat :=
  if c.isDigit then some (c.toNat - '0'.toNat)
  else if 'a' ≤ c ∧ c ≤ 'f' then some (c.toNat - 'a'.toNat + 10)
  else if 'A' ≤ c ∧ c ≤ 'F' then some (c.toNat - 'A'.toNat + 10)
  else none

/-- Reads four hexadecimal digits. A text with less than four bytes left has ended too early. -/
def hex4 : Reader Nat := do
  match ← get with
  | a :: b :: c :: d :: rest =>
    match [a, b, c, d].mapM hexValue? with
    | some values =>
      set rest
      return values.foldl (fun n value => 16 * n + value) 0
    | none => throw .malformed
  | rest => throw (if rest.foldl (fun n c => n + c.utf8Size) 0 < 4 then .truncated else .malformed)

def lowSurrogate (high : Nat) : Reader Char := do
  expect ['\\', 'u']
  let low ← hex4
  if 0xDC00 ≤ low ∧ low ≤ 0xDFFF then
    return Char.ofNat (0x10000 + (high - 0xD800) * 0x400 + (low - 0xDC00))
  else throw .malformed

/-- The character of a code unit. Surrogates come in pairs, the high one first. -/
def unit (n : Nat) : Reader Char := do
  if 0xDC00 ≤ n ∧ n ≤ 0xDFFF then throw .malformed
  else if 0xD800 ≤ n ∧ n ≤ 0xDBFF then lowSurrogate n
  else return Char.ofNat n

/-- Reads what follows a backslash. A lenient reader takes surrogates in any order. -/
def escape (lenient : Bool) : Reader Char := do
  match ← peek with
  | none => throw .truncated
  | some c =>
    advance
    match c with
    | '"' => return '"'
    | '\\' => return '\\'
    | '/' => return '/'
    | 'b' => return '\x08'
    | 'f' => return '\x0c'
    | 'n' => return '\n'
    | 'r' => return '\r'
    | 't' => return '\t'
    | 'u' =>
      let n ← hex4
      if lenient then return Char.ofNat n else unit n
    | _ => throw .malformed

/-- Reads characters up to the closing quote, in at most the given number of steps. -/
def characters (lenient : Bool) : Nat → Reader (List Char)
  | 0 => throw .truncated
  | steps + 1 => do
    match ← peek with
    | none => throw .truncated
    | some c =>
      advance
      match c with
      | '"' => return []
      | '\\' =>
        let c ← escape lenient
        return c :: (← characters lenient steps)
      | c =>
        if c.toNat < 0x20 then throw .malformed
        return c :: (← characters lenient steps)

def string (lenient : Bool) : Reader String := do
  return String.ofList (← characters lenient ((← read) + 1))

/-- After an element: whether a comma announces another one, or else the closing bracket came. -/
def another (close : Char) : Reader Bool := do
  match ← peekSolid with
  | none => throw .truncated
  | some c =>
    advance
    if c = ',' then return true
    else if c = close then return false
    else throw .malformed

def closes (close : Char) : Reader Bool := do
  match ← peekSolid with
  | none => throw .truncated
  | some c =>
    if c = close then
      advance
      return true
    else return false

def key (lenient : Bool) : Reader String := do
  match ← peekSolid with
  | none => throw .truncated
  | some '"' =>
    advance
    string lenient
  | some _ => throw .malformed

def colon : Reader Unit := do
  match ← peekSolid with
  | none => throw .truncated
  | some ':' => advance
  | some _ => throw .malformed

def scalar (first : Char) : Reader Json := do
  match first with
  | 'n' =>
    expect ['n', 'u', 'l', 'l']
    return .null
  | 't' =>
    expect ['t', 'r', 'u', 'e']
    return .bool true
  | 'f' =>
    expect ['f', 'a', 'l', 's', 'e']
    return .bool false
  | '"' =>
    advance
    return .text (← string false)
  | c => if c = '-' ∨ c.isDigit then return .number (← number) else throw .malformed

/-- Passes over a value that is neither an array nor an object. Its number may be out of range and
its string may have surrogates in any order. -/
def skipScalar (first : Char) : Reader Unit := do
  match first with
  | '"' =>
    advance
    discard (string true)
  | c =>
    if c = '-' ∨ c.isDigit then discard (literal .malformed)
    else discard (scalar c)

mutual

/-- Reads a value, in at most the given number of steps and with at most the given number of
arrays and objects open inside. -/
def valueIn : Nat → Nat → Reader Json
  | 0, _ => throw .truncated
  | steps + 1, depth => do
    match ← peekSolid with
    | none => throw .truncated
    | some '[' =>
      if depth = 0 then throw .malformed
      advance
      if ← closes ']' then return .array []
      return .array (← itemsIn steps (depth - 1))
    | some '\x7b' =>
      if depth = 0 then throw .malformed
      advance
      if ← closes '\x7d' then return .object []
      return .object (← membersIn steps (depth - 1))
    | some c => scalar c

def itemsIn : Nat → Nat → Reader (List Json)
  | 0, _ => throw .truncated
  | steps + 1, depth => do
    let item ← valueIn steps depth
    if ← another ']' then return item :: (← itemsIn steps depth)
    return [item]

def membersIn : Nat → Nat → Reader (List (String × Json))
  | 0, _ => throw .truncated
  | steps + 1, depth => do
    let name ← key false
    colon
    let value ← valueIn steps depth
    if ← another '\x7d' then return (name, value) :: (← membersIn steps depth)
    return [(name, value)]

end

mutual

def skipIn : Nat → Reader Unit
  | 0 => throw .truncated
  | steps + 1 => do
    match ← peekSolid with
    | none => throw .truncated
    | some '[' =>
      advance
      unless ← closes ']' do skipItems steps
    | some '\x7b' =>
      advance
      unless ← closes '\x7d' do skipMembers steps
    | some c => skipScalar c

def skipItems : Nat → Reader Unit
  | 0 => throw .truncated
  | steps + 1 => do
    skipIn steps
    if ← another ']' then skipItems steps

def skipMembers : Nat → Reader Unit
  | 0 => throw .truncated
  | steps + 1 => do
    discard (key true)
    colon
    skipIn steps
    if ← another '\x7d' then skipMembers steps

end

/-- Steps that suffice for any value in the text, since two steps never go by without a
character. -/
def enoughSteps : Reader Nat := return 2 * (← read) + 2

def value (depth : Nat) : Reader Json := do valueIn (← enoughSteps) depth

def skip : Reader Unit := do skipIn (← enoughSteps)

def finish : Reader Unit := do
  match ← peekSolid with
  | none => pure ()
  | some _ => throw .malformed

/-- The result of reading a whole text. -/
def runAll {α : Type} (reader : Reader α) (text : String) : Except Fault α :=
  let chars := text.toList
  ((do let a ← reader; finish; return a : Reader α).run chars.length).run' chars

end Reader

def parse (text : String) : Except Fault Json :=
  (Reader.value Reader.depthLimit).runAll text

end ResultCache.Json
