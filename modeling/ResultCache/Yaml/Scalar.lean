import ResultCache.Yaml.Cursor

/-!
The texts of scalars. Plain and quoted scalars may go over several lines, and the breaks between
two words are folded: one becomes a space, and of several the first is dropped. Block scalars keep
their lines, or fold those that are not indented further.
-/

namespace ResultCache.Yaml

def foldBreaks (first : List Char) (more : Array Char) : Array Char :=
  if first = ['\n'] then if more.isEmpty then #[' '] else more else first.toArray ++ more

namespace Cursor

/-- Reads the breaks after the first one, and the blanks around them. In front of the given column
there may be no tab. -/
def moreBreaks (indent : Nat) : Nat → Array Char → Cursor → Option (Array Char × Cursor)
  | 0, _, _ => none
  | steps + 1, breaks, c =>
    match c.head? with
    | none => some (breaks, c)
    | some d =>
      if isBlank d then
        if d = '\t' ∧ c.column < indent then none
        else moreBreaks indent steps breaks (c.advance 1)
      else if isBreak d then
        let (text, c) := c.takeBreak
        moreBreaks indent steps (breaks ++ text) c
      else some (breaks, c)

end Cursor

/-- What stands between two words. -/
structure Gap where
  text : Array Char
  /-- Whether there is a line break in it. -/
  isBroken : Bool
  cursor : Cursor

def Gap.read? (indent : Nat) (c : Cursor) : Option Gap := do
  let (blanks, c) := c.takeWhile isBlank
  if c.head?.any isBreak then
    let (first, c) := c.takeBreak
    let (more, c) ← c.moreBreaks indent (c.size + 1) #[]
    return ⟨foldBreaks first more, true, c⟩
  else return ⟨blanks.toArray, false, c⟩

/-- The text of a scalar, and the place after it. -/
structure ScalarText where
  text : Array Char
  /-- Whether line breaks were read after the last word. -/
  endsLine : Bool := false
  cursor : Cursor

/-! ### Plain scalars -/

def isFlowIndicator (c : Char) : Bool :=
  c == ',' || c == '[' || c == ']' || c == '{' || c == '}'

/-- The length of the word in front. In a flow collection it ends before an indicator, which may
not follow a colon directly. -/
def plainWord? (inFlow : Bool) : List Char → Option Nat
  | [] => some 0
  | c :: rest =>
    if isBlank c || isBreak c then some 0
    else if inFlow && c == ':' && rest.head?.any (fun d => isFlowIndicator d || d == '?') then none
    else if c == ':' && endsWord rest.head? || inFlow && isFlowIndicator c then some 0
    else (plainWord? inFlow rest).map (· + 1)

/-- Reads words and the gaps between them, after a gap that counts only if a word follows. Outside
flow collections the scalar goes on only with lines that are indented far enough. -/
def plainWords? (inFlow : Bool) (indent : Nat) : Nat → Array Char → Gap → Option ScalarText
  | 0, _, _ => none
  | steps + 1, text, gap => do
    let c := gap.cursor
    if c.atDocumentMark || c.head? = some '#' then return ⟨text, gap.isBroken, c⟩
    let length ← plainWord? inFlow c.rest
    if length = 0 then return ⟨text, gap.isBroken, c⟩
    let text := text ++ gap.text ++ c.rest.take length
    let c := c.advance length
    if c.head?.any fun d => isBlank d || isBreak d then
      let gap ← Gap.read? indent c
      if !inFlow && gap.cursor.column < indent then return ⟨text, gap.isBroken, gap.cursor⟩
      else plainWords? inFlow indent steps text gap
    else return ⟨text, false, c⟩

def plain? (inFlow : Bool) (indent : Nat) (c : Cursor) : Option ScalarText :=
  plainWords? inFlow indent (c.size + 1) #[] ⟨#[], false, c⟩

/-! ### Quoted scalars -/

def hexDigit? (c : Char) : Option Nat :=
  if c.isDigit then some (c.toNat - '0'.toNat)
  else if 'a' ≤ c ∧ c ≤ 'f' then some (c.toNat - 'a'.toNat + 10)
  else if 'A' ≤ c ∧ c ≤ 'F' then some (c.toNat - 'A'.toNat + 10)
  else none

def hexNumber? (count : Nat) (text : List Char) : Option Nat := do
  let digits := text.take count
  if digits.length ≠ count then failure
  let values ← digits.mapM hexDigit?
  return values.foldl (fun n value => 16 * n + value) 0

/-- The character of an escape with the given count of digits. Surrogates have none. -/
def codePoint? (count : Nat) (text : List Char) : Option (Char × Nat) := do
  let n ← hexNumber? count text
  if 0xD800 ≤ n ∧ n ≤ 0xDFFF ∨ 0x10FFFF < n then failure
  return (Char.ofNat n, count)

/-- What an escape stands for, and how many characters it takes after the backslash and the letter.
-/
def escape? (letter : Char) (text : List Char) : Option (Char × Nat) :=
  match letter with
  | '0' => some ('\x00', 0)
  | 'a' => some ('\x07', 0)
  | 'b' => some ('\x08', 0)
  | 't' | '\t' => some ('\t', 0)
  | 'n' => some ('\n', 0)
  | 'v' => some ('\x0b', 0)
  | 'f' => some ('\x0c', 0)
  | 'r' => some ('\r', 0)
  | 'e' => some ('\x1b', 0)
  | ' ' => some (' ', 0)
  | '"' => some ('"', 0)
  | '/' => some ('/', 0)
  | '\\' => some ('\\', 0)
  | 'N' => some ('\x85', 0)
  | '_' => some ('\u00a0', 0)
  | 'L' => some ('\u2028', 0)
  | 'P' => some ('\u2029', 0)
  | 'x' => codePoint? 2 text
  | 'u' => codePoint? 4 text
  | 'U' => codePoint? 8 text
  | _ => none

def quoteMark (single : Bool) : Char := if single then '\'' else '"'

/-- Reads the characters up to a blank, a break or the closing quote. In double quotes an escaped
break may end them as well, which the second component tells. -/
def quotedWord? (single : Bool) :
    Nat → Array Char → Cursor → Option (Array Char × Bool × Cursor)
  | 0, _, _ => none
  | steps + 1, text, c =>
    match c.rest with
    | [] => some (text, false, c)
    | d :: rest =>
      if isBlank d || isBreak d then some (text, false, c)
      else if single && d == '\'' && rest.head? == some '\'' then
        quotedWord? single steps (text.push '\'') (c.advance 2)
      else if d == quoteMark single then some (text, false, c)
      else if !single && d == '\\' then
        match rest with
        | [] => none
        | letter :: rest =>
          if isBreak letter then some (text, true, (c.advance 1).takeBreak.2)
          else
            match escape? letter rest with
            | none => none
            | some (e, used) => quotedWord? single steps (text.push e) (c.advance (2 + used))
      else quotedWord? single steps (text.push d) (c.advance 1)

def quotedWords? (single : Bool) : Nat → Array Char → Cursor → Option ScalarText
  | 0, _, _ => none
  | steps + 1, text, c => do
    if c.atDocumentMark || c.rest.isEmpty then failure
    let (text, isEscaped, c) ← quotedWord? single (c.size + 1) text c
    if c.head? = some (quoteMark single) then return ⟨text, false, c.advance 1⟩
    if isEscaped then
      let (breaks, c) ← c.moreBreaks 0 (c.size + 1) #[]
      quotedWords? single steps (text ++ breaks) c
    else
      let gap ← Gap.read? 0 c
      quotedWords? single steps (text ++ gap.text) gap.cursor

def quoted? (single : Bool) (c : Cursor) : Option ScalarText :=
  quotedWords? single (c.size + 1) #[] (c.advance 1)

/-! ### Block scalars -/

/-- What happens to the breaks at the end of a block scalar. -/
inductive Chomping where
  | strip
  | clip
  | keep
  deriving DecidableEq

def chomping? (c : Option Char) : Option Chomping :=
  match c with
  | some '+' => some .keep
  | some '-' => some .strip
  | _ => none

def indentation? (c : Cursor) : Option (Option Nat × Cursor) :=
  match c.head? with
  | some d =>
    if d = '0' then none
    else if d.isDigit then some (some (d.toNat - '0'.toNat), c.advance 1)
    else some (none, c)
  | none => some (none, c)

/-- The indicators after the first one, in either order. -/
def blockHeader? (c : Cursor) : Option (Chomping × Option Nat × Cursor) :=
  match chomping? c.head? with
  | some chomping => do
    let (indentation, c) ← indentation? (c.advance 1)
    return (chomping, indentation, c)
  | none => do
    let (indentation, c) ← indentation? c
    match indentation, chomping? c.head? with
    | some n, some chomping => return (chomping, some n, c.advance 1)
    | _, _ => return (.clip, indentation, c)

/-- Reads empty lines and the indentation of the line after them. As long as the indentation is not
known, it is found from the deepest of these lines, which is given back. -/
def blankLines? (indent : Option Nat) :
    Nat → Nat → Array Char → Cursor → Option (Nat × Array Char × Cursor)
  | 0, _, _, _ => none
  | steps + 1, deepest, breaks, c =>
    let outside (c : Cursor) : Bool := indent.all (c.column < ·)
    let spaces := (c.rest.takeWhile (· == ' ')).length
    let c := c.advance (indent.elim spaces fun n => Nat.min spaces (n - c.column))
    let deepest := if deepest < c.column then c.column else deepest
    match c.head? with
    | none => some (deepest, breaks, c)
    | some d =>
      if d = '\t' ∧ outside c then none
      else if isBreak d then
        let (text, c) := c.takeBreak
        blankLines? indent steps deepest (breaks ++ text) c
      else some (deepest, breaks, c)

/-- A block scalar while it is read. -/
structure Block where
  text : Array Char := #[]
  /-- The break after the last line. -/
  lastBreak : List Char := []
  /-- The breaks of the empty lines after it. -/
  breaks : Array Char
  /-- Whether the last line starts with a blank. -/
  isDeeper : Bool := false
  cursor : Cursor

/-- Reads the lines with the given indentation. Between lines that do not start with a blank,
folding drops a break or makes a space of it. -/
def blockLines? (isLiteral : Bool) (indent : Nat) : Nat → Block → Option Block
  | 0, _ => none
  | steps + 1, b =>
    let c := b.cursor
    if c.column ≠ indent ∨ c.rest.isEmpty then some b
    else
      let isDeeper := c.head?.any isBlank
      let isFolded := !isLiteral && b.lastBreak == ['\n'] && !b.isDeeper && !isDeeper
      let between := if isFolded then if b.breaks.isEmpty then [' '] else [] else b.lastBreak
      let (line, c) := c.takeWhile (!isBreak ·)
      let (lastBreak, c) := c.takeBreak
      match blankLines? (some indent) (c.size + 1) 0 #[] c with
      | none => none
      | some (_, breaks, c) =>
        blockLines? isLiteral indent steps
          ⟨b.text ++ between ++ b.breaks ++ line, lastBreak, breaks, isDeeper, c⟩

/-- Reads a block scalar from its first indicator on, inside a block with the given column. -/
def block? (isLiteral : Bool) (parent : Option Nat) (c : Cursor) : Option ScalarText := do
  let (chomping, indentation, c) ← blockHeader? (c.advance 1)
  let c ← c.finishLine?
  let indent := indentation.map (parent.getD 0 + ·)
  let (deepest, breaks, c) ← blankLines? indent (c.size + 1) 0 #[] c
  let least := (parent.map (· + 1)).getD 1
  let found := if deepest < least then least else deepest
  let b ← blockLines? isLiteral (indent.getD found) (c.size + 1) { breaks, cursor := c }
  let text := match chomping with
    | .strip => b.text
    | .clip => b.text ++ b.lastBreak
    | .keep => b.text ++ b.lastBreak ++ b.breaks
  return ⟨text, false, b.cursor⟩

end ResultCache.Yaml
