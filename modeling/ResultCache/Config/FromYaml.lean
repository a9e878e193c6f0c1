import ResultCache.Config.Draft
import ResultCache.Yaml.Document
import ResultCache.Yaml.Value

/-!
Configurations in YAML. The fields are the entries of a mapping, among others that are passed over;
a layer is a mapping with an entry named type, or a sequence that starts with the kind. What is
left empty counts as an empty mapping, an empty sequence or an empty text, as needed.
-/

namespace ResultCache.Config.FromYaml

open Yaml (Document Node Style Tag Value)

/-- The state is how many aliases may still be followed. -/
abbrev Reading := StateT Nat Option

def aliasLimit (d : Document) : Nat := 100 * d.root.extent

/-- The node that an alias stands for. A document in which aliases are followed too often is
refused. -/
def follow (d : Document) (node : Node) : Reading Node := do
  match node with
  | .reference target =>
    match ← get with
    | 0 => failure
    | left + 1 =>
      set left
      liftM (d.targets.lookup target)
  | node => return node

def depthLimit : Nat := 128

def text (d : Document) (node : Node) : Reading String := do
  match ← follow d node with
  | .scalar _ _ text => return text
  | _ => failure

/-- A scalar that is a flag: a plain one, or a literal one with the tag for flags. -/
def flag (d : Document) (node : Node) : Reading Bool := do
  match ← follow d node with
  | .scalar tag style text =>
    if style = .plain ∨ style = .literal ∧ tag = some .bool then
      liftM (Yaml.bool? text)
    else failure
  | _ => failure

def isLeftEmpty : Node → Bool
  | .scalar _ style text => style = .plain && text.isEmpty
  | _ => false

/-- The items of a sequence, or none where nothing was written. -/
def items (d : Document) (node : Node) : Reading (List Node) := do
  match ← follow d node with
  | .sequence _ items => return items
  | node => if isLeftEmpty node then return [] else failure

def entries (d : Document) (node : Node) : Reading (List (Node × Node)) := do
  match ← follow d node with
  | .mapping _ entries => return entries
  | node => if isLeftEmpty node then return [] else failure

def isLocal (tag : Option Tag) : Bool := tag.any (·.isLocal)

/-- What the content of a layer stands for, as far as it matters. -/
inductive Content where
  | scalar (value : Value)
  | collection

/-- Reads any content, in which not more collections than the given number stand inside each
other. -/
def content (d : Document) : Nat → Node → Reading Content
  | depth, node => do
    match ← follow d node, depth with
    | .scalar tag style text, _ =>
      match Yaml.scalarValue? tag style text with
      | some .wide => failure
      | some value => return .scalar value
      | none => failure
    | .sequence tag items, depth + 1 =>
      if isLocal tag then failure
      for item in items do discard (content d depth item)
      return .collection
    | .mapping tag entries, depth + 1 =>
      if isLocal tag then failure
      for (key, value) in entries do
        discard (content d depth key)
        discard (content d depth value)
      return .collection
    | _, _ => failure

/-- How many collections may stand inside each other within a layer, which stands in three. -/
def layerDepth : Nat := depthLimit - 3

def kind (d : Document) (node : Node) : Reading Kind := do
  liftM (Kind.ofName? (← text d node))

def count : Content → Reading UInt64
  | .scalar (.unsigned n) => return UInt64.ofNat n
  | .scalar (.negative 0) => return 0
  | _ => failure

/-- Reads the entries of a layer. The kind is read at once and the others are kept. -/
def layerEntries (d : Document) :
    Option Kind → List (Content × Content) → List (Node × Node) →
      Reading (Option Kind × List (Content × Content))
  | found, kept, [] => return (found, kept.reverse)
  | found, kept, (key, value) :: entries => do
    match ← content d layerDepth key with
    | .scalar (.text "type") =>
      if found.isSome then failure
      layerEntries d (some (← kind d value)) kept entries
    | key => layerEntries d found ((key, ← content d layerDepth value) :: kept) entries

/-- Whether a key names the one setting of a kind. A number counts the settings from zero. -/
def namesSetting (kind : Kind) : Content → Option Bool
  | .scalar (.text name) => some (name == kind.setting)
  | .scalar (.unsigned n) => some (n == 0)
  | _ => none

/-- The setting among the entries of a layer. It may be given once, and others are passed over. -/
def settingOf (kind : Kind) : Option UInt64 → List (Content × Content) →
    Reading (Option UInt64)
  | found, [] => return found
  | found, (key, value) :: entries => do
    match namesSetting kind key, found with
    | none, _ => failure
    | some false, _ => settingOf kind found entries
    | some true, some _ => failure
    | some true, none => settingOf kind (some (← count value)) entries

def layer (d : Document) (node : Node) : Reading Layer := do
  match ← follow d node with
  | .mapping tag entries =>
    if isLocal tag then failure
    match ← layerEntries d none [] entries with
    | (some kind, entries) => return kind.layer (← settingOf kind none entries)
    | (none, _) => failure
  | .sequence tag (first :: rest) =>
    if isLocal tag then failure
    let kind ← kind d first
    match ← rest.mapM (content d layerDepth) with
    | [] => return kind.layer none
    | [value] => return kind.layer (some (← count value))
    | _ => failure
  | _ => failure

def field (d : Document) (draft : Draft) (name : String) (value : Node) : Reading Draft := do
  match name with
  | "id" =>
    if draft.id.isSome then failure
    return { draft with id := some (← text d value) }
  | "layers" =>
    if draft.layers.isSome then failure
    return { draft with layers := some (← (← items d value).mapM (layer d)) }
  | "logging" =>
    if draft.logging.isSome then failure
    return { draft with logging := some (← flag d value) }
  | _ => return draft

def draft (d : Document) : Reading Draft := do
  (← entries d d.root).foldlM (fun draft entry => do
    field d draft (← text d entry.1) entry.2) {}

end FromYaml

/-- Reads a configuration without checking its rules. A text without a document has no fields. -/
def readYaml? (text : String) : Option Config := do
  match ← Yaml.document? text with
  | none => return default
  | some document =>
    return (← (FromYaml.draft document).run' (FromYaml.aliasLimit document)).complete

def fromYaml (text : String) : Except Error Config :=
  match readYaml? text with
  | some config => config.checked
  | none => .error .unreadableYaml

end ResultCache.Config
