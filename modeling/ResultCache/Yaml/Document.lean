import ResultCache.Yaml.Lexer
import ResultCache.Yaml.Node

/-!
Documents of YAML texts. Values that are missing between two tokens are empty scalars. A text holds
one document at most, and one without any token holds none.
-/

namespace ResultCache.Yaml

/-- Where an anchored node is and under which number aliases find it. Anchors of one name share no
number, though a number may be given again; the node anchored last then has it. -/
structure Anchors where
  /-- The number of each name. -/
  numbers : List (String × Nat) := []
  /-- The numbers of all anchored nodes, the last one in front. -/
  given : List Nat := []
  /-- The finished nodes by their place among the anchored ones. -/
  nodes : List (Nat × Node) := []

namespace Anchors

/-- Anchors the next node. Its number is that of the names in use, and its place is given back. -/
def anchor (a : Anchors) (name : String) : Nat × Anchors :=
  let number := a.numbers.length
  (a.given.length,
    { a with
      numbers := (name, number) :: a.numbers.filter (·.1 != name)
      given := number :: a.given })

def targets (a : Anchors) : List (Nat × Node) :=
  let places := a.given.reverse.zipIdx.reverse
  places.filterMap fun (number, place) => (a.nodes.lookup place).map (number, ·)

end Anchors

/-- The tokens to come and what is known so far. -/
structure Building where
  tokens : List Token
  anchors : Anchors := {}
  /-- What the tag handles of the document stand for. -/
  shorthands : List (String × List UInt8) := []

abbrev Builder := StateT Building Option

namespace Builder

def peek : Builder (Option Token) := return (← get).tokens.head?

def advance : Builder Unit := modify fun b => { b with tokens := b.tokens.tail }

def isNext (expected : List Token) : Builder Bool := do
  return (← peek).any expected.contains

def expect (token : Token) : Builder Unit := do
  if (← peek) = some token then advance else failure

def anchor? : Builder (Option String) := do
  match ← peek with
  | some (.anchor name) =>
    advance
    return some name
  | _ => return none

def tag? : Builder (Option Tag) := do
  match ← peek with
  | some (.tag handle suffix) =>
    advance
    if handle.isEmpty then return some ⟨suffix⟩
    match (← get).shorthands.lookup handle with
    | some text => return some ⟨text ++ suffix⟩
    | none => failure
  | _ => return none

/-- An anchor and a tag, in either order. -/
def properties : Builder (Option String × Option Tag) := do
  match ← anchor? with
  | some name => return (some name, ← tag?)
  | none =>
    let tag ← tag?
    return (← anchor?, tag)

/-- A node that an alias stands for has to be anchored before. -/
def aliasOf (name : String) : Builder Node := do
  match (← get).anchors.numbers.lookup name with
  | some number => return .reference number
  | none => failure

/-- Reads a node that may be anchored. -/
def anchored (name : Option String) (node : Builder Node) : Builder Node := do
  match name with
  | none => node
  | some name =>
    let (place, anchors) := (← get).anchors.anchor name
    modify ({ · with anchors })
    let node ← node
    modify fun b => { b with anchors.nodes := (place, node) :: b.anchors.nodes }
    return node

/-- Where a node stands. -/
inductive Place where
  | inFlow
  | inBlock
  /-- As a key or a value of a block mapping, where sequences need no indentation. -/
  | inMapping
  deriving DecidableEq

mutual

/-- Reads a node, in at most the given number of steps. -/
def node : Nat → Place → Builder Node
  | 0, _ => failure
  | steps + 1, place => do
    if let some (.reference name) ← peek then
      advance
      return ← aliasOf name
    let (name, tag) ← properties
    match ← peek with
    | some (.scalar style text) =>
      advance
      anchored name (return .scalar tag style text)
    | some .flowSequenceStart =>
      advance
      anchored name (return .sequence tag (← flowItems steps true))
    | some .flowMappingStart =>
      advance
      anchored name (return .mapping tag (← flowEntries steps true))
    | some .blockSequenceStart =>
      if place = .inFlow then failure
      advance
      anchored name (return .sequence tag (← blockItems steps))
    | some .blockMappingStart =>
      if place = .inFlow then failure
      advance
      anchored name (return .mapping tag (← blockEntries steps))
    | next =>
      if next = some .blockEntry ∧ place = .inMapping then
        anchored name (return .sequence tag (← looseItems steps))
      else if name.isSome ∨ tag.isSome then
        anchored name (return .scalar tag .plain "")
      else failure

def nodeUnless (stops : List Token) : Nat → Place → Builder Node
  | 0, _ => failure
  | steps + 1, place => do
    if ← isNext stops then return .empty else node steps place

def blockItems : Nat → Builder (List Node)
  | 0 => failure
  | steps + 1 => do
    if ← isNext [.blockEntry] then
      advance
      let item ← nodeUnless [.blockEntry, .blockEnd] steps .inBlock
      return item :: (← blockItems steps)
    else
      expect .blockEnd
      return []

/-- The items of a sequence that is not indented. It has no end of its own. -/
def looseItems : Nat → Builder (List Node)
  | 0 => failure
  | steps + 1 => do
    if ← isNext [.blockEntry] then
      advance
      let item ← nodeUnless [.blockEntry, .key, .value, .blockEnd] steps .inBlock
      return item :: (← looseItems steps)
    else return []

/-- The entries of a block mapping, of which the key or the value may be missing. -/
def blockEntries : Nat → Builder (List (Node × Node))
  | 0 => failure
  | steps + 1 => do
    let stops : List Token := [.key, .value, .blockEnd]
    if ← isNext [.key] then
      advance
      let key ← nodeUnless stops steps .inMapping
      if ← isNext [.value] then
        advance
        let value ← nodeUnless stops steps .inMapping
        return (key, value) :: (← blockEntries steps)
      else return (key, .empty) :: (← blockEntries steps)
    else
      expect .blockEnd
      return []

/-- One item of a flow sequence that is a mapping of its own, after its key token. A key that is
missing takes the next token with it. -/
def flowPair : Nat → Builder Node
  | 0 => failure
  | steps + 1 => do
    let stops : List Token := [.value, .flowEntry, .flowSequenceEnd]
    let isMissing ← isNext stops
    if isMissing then advance
    let key ← if isMissing then pure Node.empty else node steps .inFlow
    if ← isNext [.value] then
      advance
      let value ← nodeUnless [.flowEntry, .flowSequenceEnd] steps .inFlow
      return .mapping none [(key, value)]
    else return .mapping none [(key, .empty)]

/-- The items of a flow sequence, which commas separate. One comma may follow the last item. -/
def flowItems : Nat → Bool → Builder (List Node)
  | 0, _ => failure
  | steps + 1, isFirst => do
    if ← isNext [.flowSequenceEnd] then
      advance
      return []
    if !isFirst then expect .flowEntry
    if ← isNext [.flowSequenceEnd] then
      advance
      return []
    let item ← if ← isNext [.key] then do
        advance
        flowPair steps
      else node steps .inFlow
    return item :: (← flowItems steps false)

/-- The entries of a flow mapping, which commas separate. A key may stand alone. -/
def flowEntries : Nat → Bool → Builder (List (Node × Node))
  | 0, _ => failure
  | steps + 1, isFirst => do
    if ← isNext [.flowMappingEnd] then
      advance
      return []
    if !isFirst then expect .flowEntry
    if ← isNext [.flowMappingEnd] then
      advance
      return []
    if ← isNext [.key] then
      advance
      let key ← nodeUnless [.value, .flowEntry, .flowMappingEnd] steps .inFlow
      if ← isNext [.value] then
        advance
        let value ← nodeUnless [.flowEntry, .flowMappingEnd] steps .inFlow
        return (key, value) :: (← flowEntries steps false)
      else return (key, .empty) :: (← flowEntries steps false)
    else
      let key ← node steps .inFlow
      return (key, .empty) :: (← flowEntries steps false)

end

/-- The handles that stand for something in every document. -/
def commonShorthands : List (String × List UInt8) :=
  [("!", (Tag.named "!").bytes), ("!!", (Tag.named "tag:yaml.org,2002:").bytes)]

/-- Reads the directives of a document. There is one version at most, a known one, and each handle
is given once. -/
def directives : Nat → Bool → List (String × List UInt8) → Builder (List (String × List UInt8))
  | 0, _, _ => failure
  | steps + 1, hasVersion, shorthands => do
    match ← peek with
    | some (.version major minor) =>
      if hasVersion ∨ major ≠ 1 ∨ minor ≠ 1 ∧ minor ≠ 2 then failure
      advance
      directives steps true shorthands
    | some (.shorthand handle text) =>
      if (shorthands.lookup handle).isSome then failure
      advance
      directives steps hasVersion ((handle, text) :: shorthands)
    | _ => return shorthands

def atDirective : Builder Bool := do
  match ← peek with
  | none => return true
  | some (.version ..) => return true
  | some (.shorthand ..) => return true
  | some token => return token = .documentStart

def markedRoot (steps : Nat) : Builder Node := do
  let shorthands ← directives steps false []
  modify ({ · with shorthands := shorthands ++ commonShorthands })
  expect .documentStart
  if (← atDirective) || (← isNext [.documentEnd]) then return .empty
  else node steps .inBlock

def bareRoot (steps : Nat) : Builder Node := do
  modify ({ · with shorthands := commonShorthands })
  node steps .inBlock

def dropDocumentEnds : Builder Unit :=
  modify fun b => { b with tokens := b.tokens.dropWhile (· == .documentEnd) }

/-- Reads a text that holds one document, and nothing but marks of its end after it. -/
def onlyDocument (steps : Nat) : Builder Document := do
  let root ← if ← atDirective then markedRoot steps else bareRoot steps
  dropDocumentEnds
  if (← peek).isSome then failure
  return { root, targets := (← get).anchors.targets }

end Builder

/-- The one document of a text, or none if there is nothing in it. -/
def document? (text : String) : Option (Option Document) := do
  let tokens ← tokens? text
  if tokens.isEmpty then return none
  return some (← (Builder.onlyDocument (4 * tokens.length + 8)).run' { tokens })

end ResultCache.Yaml
