import ResultCache.Yaml.Property

/-!
The tokens of a YAML text. Blocks start and end where the indentation changes, and a value that is
followed by a colon on its line turns out to be a key; its token is then inserted in front of it.
-/

namespace ResultCache.Yaml

/-- A value that may turn out to be a key. -/
structure Candidate where
  /-- Whether it must be one, because it starts a line of a mapping. -/
  isRequired : Bool
  /-- The number of tokens in front of it. -/
  token : Nat
  index : Nat
  line : Nat
  column : Nat

structure Lexer where
  cursor : Cursor
  tokens : Array Token := #[]
  /-- The candidates of the open flow collections, the innermost first, and last that of the
  block around them. -/
  candidates : List (Option Candidate) := [none]
  /-- The columns of the open blocks, the innermost first. -/
  blocks : List Nat := []
  /-- Whether a key may start here. -/
  allowsKey : Bool := true

namespace Lexer

abbrev Lexing := StateT Lexer Option

def inFlow (l : Lexer) : Bool := !l.candidates.tail.isEmpty

def emit (token : Token) : Lexing Unit :=
  modify fun l => { l with tokens := l.tokens.push token }

def emitOver (token : Token) (length : Nat) : Lexing Unit :=
  modify fun l => { l with cursor := l.cursor.advance length, tokens := l.tokens.push token }

def allowKey (allowed : Bool) : Lexing Unit := modify ({ · with allowsKey := allowed })

/-- Moves over blanks, comments and line breaks to the next token. In a block, tabs may not stand
where a key might start. -/
def skipToToken : Nat → Lexing Unit
  | 0 => failure
  | steps + 1 => do
    let l ← get
    let c := if l.cursor.column = 0 ∧ l.cursor.head? = some '\ufeff' then l.cursor.advance 1
      else l.cursor
    let takesTabs := l.inFlow || !l.allowsKey
    let c := (c.dropWhile fun d => d == ' ' || takesTabs && d == '\t').skipComment
    if c.head?.any isBreak then
      set { l with cursor := c.takeBreak.2, allowsKey := l.allowsKey || !l.inFlow }
      skipToToken steps
    else set { l with cursor := c }

/-- A key stays on one line and is not longer than 1024 bytes. -/
def isStale (c : Cursor) (k : Candidate) : Bool :=
  k.line < c.line || k.index + 1024 < c.index

/-- Gives up the candidates that can no longer be keys. -/
def dropStale : Lexing Unit := do
  let l ← get
  if l.candidates.any fun k => k.any fun k => isStale l.cursor k && k.isRequired then failure
  set { l with candidates := l.candidates.map (Option.filter (!isStale l.cursor ·)) }

def dropCandidate : Lexing Unit := do
  let l ← get
  match l.candidates with
  | [] => failure
  | k :: candidates =>
    if k.any (·.isRequired) then failure
    set { l with candidates := none :: candidates }

def noteCandidate : Lexing Unit := do
  if (← get).allowsKey then
    dropCandidate
    let l ← get
    let c := l.cursor
    let candidate : Candidate :=
      { isRequired := !l.inFlow && l.blocks.head? == some c.column
        token := l.tokens.size, index := c.index, line := c.line, column := c.column }
    set { l with candidates := some candidate :: l.candidates.tail }

/-- Opens a block at a column that is further right than all open ones. Its token comes at the
given place, or else at the end. -/
def openBlock (column : Nat) (start : Token) (place : Option Nat) : Lexing Unit :=
  modify fun l =>
    if l.inFlow || l.blocks.head?.any (column ≤ ·) then l
    else
      { l with
        blocks := column :: l.blocks
        tokens := l.tokens.insertIdxIfInBounds (place.getD l.tokens.size) start }

/-- Closes the blocks that are further right than a column, or all of them. -/
def closeBlocks (column : Option Nat) : Lexing Unit :=
  modify fun l =>
    if l.inFlow then l
    else
      let closed := l.blocks.takeWhile fun block => column.all (· < block)
      { l with
        blocks := l.blocks.drop closed.length
        tokens := l.tokens ++ closed.map fun _ => Token.blockEnd }

def finish : Lexing Unit := do
  closeBlocks none
  dropCandidate

def directive : Lexing Unit := do
  closeBlocks none
  dropCandidate
  allowKey false
  let (token, cursor) ← liftM (directive? (← get).cursor)
  modify ({ · with cursor })
  emit token

def documentMark (token : Token) : Lexing Unit := do
  closeBlocks none
  dropCandidate
  allowKey false
  emitOver token 3

def openFlow (token : Token) : Lexing Unit := do
  noteCandidate
  modify fun l => { l with candidates := none :: l.candidates }
  allowKey true
  emitOver token 1

def closeFlow (token : Token) : Lexing Unit := do
  dropCandidate
  modify fun l => if l.inFlow then { l with candidates := l.candidates.tail } else l
  allowKey false
  emitOver token 1

def flowEntry : Lexing Unit := do
  dropCandidate
  allowKey true
  emitOver .flowEntry 1

/-- An indicator that opens a block if there is none at its column. A key has to be allowed here. -/
def blockIndicator (start : Token) : Lexing Unit := do
  let l ← get
  if !l.inFlow then
    if !l.allowsKey then failure
    openBlock l.cursor.column start none

def blockEntry : Lexing Unit := do
  blockIndicator .blockSequenceStart
  dropCandidate
  allowKey true
  emitOver .blockEntry 1

def key : Lexing Unit := do
  blockIndicator .blockMappingStart
  dropCandidate
  allowKey !(← get).inFlow
  emitOver .key 1

/-- A colon makes a key of the candidate, or else it follows a key with an indicator. -/
def value : Lexing Unit := do
  let l ← get
  match l.candidates.head?.join with
  | some k =>
    set { l with
      tokens := l.tokens.insertIdxIfInBounds k.token .key
      candidates := none :: l.candidates.tail }
    openBlock k.column .blockMappingStart (some k.token)
    allowKey false
  | none =>
    blockIndicator .blockMappingStart
    allowKey !l.inFlow
  emitOver .value 1

def anchor (make : String → Token) : Lexing Unit := do
  noteCandidate
  allowKey false
  let (name, cursor) ← liftM (anchorName? (← get).cursor)
  modify ({ · with cursor })
  emit (make name)

def tag : Lexing Unit := do
  noteCandidate
  allowKey false
  let l ← get
  let (token, cursor) ← liftM (tag? l.inFlow l.cursor)
  modify ({ · with cursor })
  emit token

def blockScalar (style : Style) : Lexing Unit := do
  dropCandidate
  allowKey true
  let l ← get
  let scalar ← liftM (block? (style == .literal) l.blocks.head? l.cursor)
  modify ({ · with cursor := scalar.cursor })
  emit (.scalar style (String.ofList scalar.text.toList))

def quotedScalar (style : Style) : Lexing Unit := do
  noteCandidate
  allowKey false
  let scalar ← liftM (quoted? (style == .singleQuoted) (← get).cursor)
  modify ({ · with cursor := scalar.cursor })
  emit (.scalar style (String.ofList scalar.text.toList))

def plainScalar : Lexing Unit := do
  noteCandidate
  allowKey false
  let l ← get
  let indent := l.blocks.head?.elim 0 (· + 1)
  let scalar ← liftM (plain? l.inFlow indent l.cursor)
  modify ({ · with cursor := scalar.cursor })
  if scalar.endsLine then allowKey true
  emit (.scalar .plain (String.ofList scalar.text.toList))

def startsPlain (inFlow : Bool) (c : Char) (next : Option Char) : Bool :=
  !(isBlank c || isBreak c ||
    ['-', '?', ':', ',', '[', ']', '{', '}', '#', '&', '*', '!', '|', '>', '\'', '"', '%', '@',
      '\x60'].contains c) ||
    c == '-' && !next.any isBlank || !inFlow && (c == '?' || c == ':') && !endsWord next

def token (c : Char) : Lexing Unit := do
  let l ← get
  let next := l.cursor.ahead? 1
  let alone := endsWord next
  if l.cursor.column = 0 ∧ c = '%' then directive
  else if l.cursor.atMark '-' then documentMark .documentStart
  else if l.cursor.atMark '.' then documentMark .documentEnd
  else if c = '[' then openFlow .flowSequenceStart
  else if c = '{' then openFlow .flowMappingStart
  else if c = ']' then closeFlow .flowSequenceEnd
  else if c = '}' then closeFlow .flowMappingEnd
  else if c = ',' then flowEntry
  else if c = '-' ∧ alone then blockEntry
  else if c = '?' ∧ (l.inFlow ∨ alone) then key
  else if c = ':' ∧ (l.inFlow ∨ alone) then value
  else if c = '*' then anchor .reference
  else if c = '&' then anchor .anchor
  else if c = '!' then tag
  else if c = '|' ∧ !l.inFlow then blockScalar .literal
  else if c = '>' ∧ !l.inFlow then blockScalar .folded
  else if c = '\'' then quotedScalar .singleQuoted
  else if c = '"' then quotedScalar .doubleQuoted
  else if startsPlain l.inFlow c next then plainScalar
  else failure

def run : Nat → Lexing Unit
  | 0 => failure
  | steps + 1 => do
    skipToToken ((← get).cursor.size + 1)
    dropStale
    let l ← get
    match l.cursor.head? with
    | none => finish
    | some c =>
      closeBlocks (some l.cursor.column)
      token c
      run steps

end Lexer

def tokens? (text : String) : Option (List Token) := do
  let chars := text.toList
  if !chars.all isAllowed then failure
  let ((), l) ← (Lexer.run (chars.length + 1)).run
    { cursor := { rest := chars, size := chars.length } }
  return l.tokens.toList

end ResultCache.Yaml
