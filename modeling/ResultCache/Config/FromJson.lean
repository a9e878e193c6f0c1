import ResultCache.Binary64.Text
import ResultCache.Config.Draft
import ResultCache.Json.Reader
import ResultCache.Text.Quoted

/-!
Configurations in JSON. The fields may come as the members of an object, among others that are
passed over, or in order as the items of an array; a layer likewise, with its kind as the member
named type or as the first item. The first problem met while reading is reported.
-/

namespace ResultCache.Config

open Json (Fault Reader)

def describe : Json → String
  | .null => "null"
  | .bool b => "boolean `" ++ String.ofList (Json.boolText b) ++ "`"
  | .number (.whole n) => "integer `" ++ String.ofList (Text.integer n) ++ "`"
  | .number (.float x) => "floating point `" ++ String.ofList (x.text Binary64.jsonStyle) ++ "`"
  | .text s => "string " ++ Text.quoted s
  | .array _ => "sequence"
  | .object _ => "map"

def wrongType (found expected : String) : Fault :=
  .mismatch ("invalid type: " ++ found ++ ", expected " ++ expected)

def duplicateField (name : String) : Fault := .mismatch ("duplicate field `" ++ name ++ "`")

def missingField (name : String) : Fault := .mismatch ("missing field `" ++ name ++ "`")

def unknownKind (name : String) : Fault :=
  .mismatch ("unknown variant `" ++ name ++ "`, expected `lru` or `weak`")

/-- A layer has its kind and one setting. -/
def extraItems (count : Nat) : Fault :=
  .mismatch ("invalid length " ++ String.ofList (Text.natural count) ++
    ", expected 1 element in sequence")

namespace FromJson

open Json.Reader

/-- Fails on a value of the wrong type. Simple values are read to the end first, since the message
shows them. -/
def refuse {α : Type} (expected : String) : Reader α := do
  match ← peekSolid with
  | none => throw .truncated
  | some '[' => throw (wrongType "sequence" expected)
  | some '\x7b' => throw (wrongType "map" expected)
  | some c => throw (wrongType (describe (← scalar c)) expected)

def text (expected : String) : Reader String := do
  match ← peekSolid with
  | some '"' =>
    advance
    string false
  | _ => refuse expected

def flag : Reader Bool := do
  match ← peekSolid with
  | some 't' =>
    expect ['t', 'r', 'u', 'e']
    return true
  | some 'f' =>
    expect ['f', 'a', 'l', 's', 'e']
    return false
  | _ => refuse "a boolean"

def kind : Reader Kind := do
  let name ← text "variant identifier"
  match Kind.ofName? name with
  | some kind => return kind
  | none => throw (unknownKind name)

def count : Json → Except Fault UInt64
  | .number (.whole n) =>
    if n < 0 then
      .error (.mismatch ("invalid value: " ++ describe (.number (.whole n)) ++ ", expected usize"))
    else .ok (UInt64.ofNat n.toNat)
  | value => .error (wrongType (describe value) "usize")

/-- The setting among the members of a layer. It may be given once, and others are passed over. -/
def settingOf (name : String) : Option UInt64 → List (String × Json) →
    Except Fault (Option UInt64)
  | found, [] => .ok found
  | found, (key, value) :: members =>
    if key = name then
      match found with
      | some _ => .error (duplicateField name)
      | none => do settingOf name (some (← count value)) members
    else settingOf name found members

def layerOfMembers (kind : Kind) (members : List (String × Json)) : Except Fault Layer := do
  return kind.layer (← settingOf kind.setting none members)

def layerOfItems (kind : Kind) : List Json → Except Fault Layer
  | [] => .ok (kind.layer none)
  | value :: rest => do
    let n ← count value
    if rest.isEmpty then return kind.layer (some n) else throw (extraItems (rest.length + 1))

/-- How many arrays and objects may be open inside a layer, which stands inside three. -/
def layerDepth : Nat := depthLimit - 3

/-- Reads the members of a layer. The kind is read at once and the others are kept. -/
def layerMembers : Nat → Option Kind → Reader (Option Kind × List (String × Json))
  | 0, _ => throw .truncated
  | steps + 1, found => do
    let name ← key false
    if name = "type" then
      if found.isSome then throw (duplicateField "type")
      colon
      let found := some (← kind)
      if ← another '\x7d' then layerMembers steps found
      else return (found, [])
    else
      colon
      let value ← value layerDepth
      if ← another '\x7d' then
        let (found, members) ← layerMembers steps found
        return (found, (name, value) :: members)
      else return (found, [(name, value)])

def layerItems : Nat → Reader (List Json)
  | 0 => throw .truncated
  | steps + 1 => do
    if ← another ']' then
      let item ← value layerDepth
      return item :: (← layerItems steps)
    else return []

def layer : Reader Layer := do
  match ← peekSolid with
  | some '\x7b' =>
    advance
    if ← closes '\x7d' then throw (missingField "type")
    match ← layerMembers (← enoughSteps) none with
    | (some kind, members) => liftM (layerOfMembers kind members)
    | (none, _) => throw (missingField "type")
  | some '[' =>
    advance
    if ← closes ']' then throw (missingField "type")
    let kind ← kind
    liftM (layerOfItems kind (← layerItems (← enoughSteps)))
  | _ => refuse "internally tagged enum LayerConfig"

def moreLayers : Nat → Reader (List Layer)
  | 0 => throw .truncated
  | steps + 1 => do
    let first ← layer
    if ← another ']' then return first :: (← moreLayers steps)
    return [first]

def layers : Reader (List Layer) := do
  match ← peekSolid with
  | some '[' =>
    advance
    if ← closes ']' then return []
    moreLayers (← enoughSteps)
  | _ => refuse "a sequence"

def field (d : Draft) (name : String) : Reader Draft := do
  match name with
  | "id" =>
    if d.id.isSome then throw (duplicateField name)
    colon
    return { d with id := some (← text "a string") }
  | "layers" =>
    if d.layers.isSome then throw (duplicateField name)
    colon
    return { d with layers := some (← layers) }
  | "logging" =>
    if d.logging.isSome then throw (duplicateField name)
    colon
    return { d with logging := some (← flag) }
  | _ =>
    colon
    skip
    return d

def fields : Nat → Draft → Reader Draft
  | 0, _ => throw .truncated
  | steps + 1, d => do
    let d ← field d (← key false)
    if ← another '\x7d' then fields steps d
    else return d

def endOfItems : Reader Unit := do
  match ← peekSolid with
  | none => throw .truncated
  | some ']' => advance
  | some _ => throw .malformed

/-- Reads the fields in their order. Those at the end may be missing. -/
def items : Reader Draft := do
  if ← closes ']' then return {}
  let id ← text "a string"
  unless ← another ']' do return { id := some id }
  let layers ← layers
  unless ← another ']' do return { id := some id, layers := some layers }
  let logging ← flag
  endOfItems
  return { id := some id, layers := some layers, logging := some logging }

def draft : Reader Draft := do
  match ← peekSolid with
  | some '\x7b' =>
    advance
    if ← closes '\x7d' then return {}
    fields (← enoughSteps) {}
  | some '[' =>
    advance
    items
  | _ => refuse "struct CacheConfig"

end FromJson

/-- Reads a configuration without checking its rules. -/
def readJson (text : String) : Except Fault Config :=
  (FromJson.draft.runAll text).map Draft.complete

def fromJson (text : String) : Except Error Config :=
  match readJson text with
  | .ok config => config.checked
  | .error fault => .error (.unreadableJson fault)

end ResultCache.Config
