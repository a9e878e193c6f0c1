import ResultCache.Json.Fault

/-! Errors of the library and their messages. -/

namespace ResultCache

/-- Where an error arose, as far as is known. -/
structure Context where
  fieldPath : Option String := none
  details : Option String := none
  source : Option String := none
  deriving DecidableEq

inductive Error where
  /-- An update of a key that stands for no query at all. -/
  | immutableKey (context : Context)
  | configuration (reason : String) (context : Context)
  | unreadableJson (fault : Json.Fault)
  | unreadableYaml
  deriving DecidableEq

/-- What is known, in a fixed order and in parentheses; nothing when nothing is known. -/
def Context.text (context : Context) : String :=
  let known := [("field", context.fieldPath), ("details", context.details),
    ("source", context.source)].filterMap fun item => item.2.map (item.1 ++ ": " ++ ·)
  if known.isEmpty then "" else " (" ++ String.intercalate ", " known ++ ")"

namespace Error

def forbidden (operation : String) : Error :=
  .immutableKey { details := some operation, source := some "cache_key" }

def isImmutableKey : Error → Bool
  | .immutableKey _ => true
  | _ => false

def context? : Error → Option Context
  | .immutableKey context => some context
  | .configuration _ context => some context
  | _ => none

/-- Unreadable texts are told apart only by what they lack, not by where. -/
def message : Error → String
  | .immutableKey context => "Not allowed to update a null cache key instance" ++ context.text
  | .configuration reason context => "Configuration error: " ++ reason ++ context.text
  | .unreadableJson (.mismatch reason) => "Serialization error: " ++ reason
  | .unreadableJson _ => "Serialization error"
  | .unreadableYaml => "YAML error"

end Error
end ResultCache
