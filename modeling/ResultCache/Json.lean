import ResultCache.Binary64.Basic

/-!
JSON documents as they are written: the members of an object stay in the order of the text, and
several may have the same name.
-/

namespace ResultCache

namespace Json

/-- A whole number fits in a word of 64 bits, with or without a sign; every other number is
rounded. -/
inductive Number where
  | whole (n : Int)
  | float (x : Binary64)
  deriving DecidableEq

end Json

inductive Json where
  | null
  | bool (b : Bool)
  | number (n : Json.Number)
  | text (s : String)
  | array (items : List Json)
  | object (members : List (String × Json))
  deriving Inhabited

end ResultCache
