import ResultCache.Error
import ResultCache.Json.Writer
import ResultCache.Text.Blank
import ResultCache.Text.Decimal

/-!
Configurations of chains: a name, the layers from the inside outwards, and whether to log. A valid
one has a name that is not blank, no recency layer without room, and at most one weak layer.
-/

namespace ResultCache

namespace Config

inductive Layer where
  | lru (capacity : UInt64)
  | weak (pinCount : UInt64)
  deriving DecidableEq

/-- The rule that a configuration breaks. -/
inductive Violation where
  | blankId
  /-- The first recency layer without room. -/
  | zeroCapacity (layer : Nat)
  /-- More weak layers than one. -/
  | severalWeak (count : Nat)
  deriving DecidableEq

end Config

structure Config where
  id : String := "default"
  /-- The innermost layer comes first. -/
  layers : List Config.Layer := [.lru 1024]
  logging : Bool := true
  deriving DecidableEq

namespace Config

def defaultCapacity : UInt64 := 1024

def defaultPinCount : UInt64 := 256

def default : Config := {}

def bare (id : String) : Config := { id, layers := [], logging := false }

def withId (c : Config) (id : String) : Config := { c with id }

def withLayers (c : Config) (layers : List Layer) : Config := { c with layers }

def withLogging (c : Config) (logging : Bool) : Config := { c with logging }

/-- Adds a layer around all others. -/
def addLayer (c : Config) (layer : Layer) : Config := { c with layers := c.layers ++ [layer] }

/-- Counts the weak layers, unless there is a recency layer without room. Layers are numbered from
the given one on. -/
def checkLayers (number weak : Nat) : List Layer → Except Violation Nat
  | [] => .ok weak
  | .lru capacity :: layers =>
    if capacity = 0 then .error (.zeroCapacity number) else checkLayers (number + 1) weak layers
  | .weak _ :: layers => checkLayers (number + 1) (weak + 1) layers

/-- The first rule that is broken is reported. -/
def validate (c : Config) : Except Violation Unit := do
  if Text.allBlank c.id then throw .blankId
  let weak ← checkLayers 0 0 c.layers
  if 1 < weak then throw (.severalWeak weak)

namespace Violation

def reason : Violation → String
  | blankId => "cache id must not be empty"
  | zeroCapacity _ => "LRU capacity must be greater than zero"
  | severalWeak _ => "at most one weak layer is allowed"

def decimal (n : Nat) : String := String.ofList (Text.natural n)

def context : Violation → Context
  | blankId => { fieldPath := some "id", source := some "cache_config" }
  | zeroCapacity layer =>
    { fieldPath := some ("layers[" ++ decimal layer ++ "].capacity")
      source := some "cache_config" }
  | severalWeak count =>
    { fieldPath := some "layers"
      details := some ("found " ++ decimal count ++ " weak layers")
      source := some "cache_config" }

def error (v : Violation) : Error := .configuration v.reason v.context

end Violation

def checked (c : Config) : Except Error Config :=
  match c.validate with
  | .ok () => .ok c
  | .error violation => .error violation.error

namespace Layer

/-- A layer names its kind before its one setting. -/
def canonical : Layer → List Char
  | lru capacity =>
    Json.objectText [Json.memberText "type" (Json.quote "lru"),
      Json.memberText "capacity" (Text.natural capacity.toNat)]
  | weak pinCount =>
    Json.objectText [Json.memberText "type" (Json.quote "weak"),
      Json.memberText "pin_count" (Text.natural pinCount.toNat)]

end Layer

def canonical (c : Config) : List Char :=
  Json.objectText
    [Json.memberText "id" (Json.quote c.id),
      Json.memberText "layers" (Json.arrayText (c.layers.map Layer.canonical)),
      Json.memberText "logging" (Json.boolText c.logging)]

def json (c : Config) : String := String.ofList c.canonical

end Config
end ResultCache
