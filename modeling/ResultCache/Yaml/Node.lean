import ResultCache.Yaml.Tag
import ResultCache.Yaml.Token

/-!
Nodes of YAML documents. Keys and values of a mapping stay in the order of the text, and an alias
stays an alias until somebody asks for its node.
-/

namespace ResultCache.Yaml

inductive Node where
  | reference (target : Nat)
  | scalar (tag : Option Tag) (style : Style) (text : String)
  | sequence (tag : Option Tag) (items : List Node)
  | mapping (tag : Option Tag) (entries : List (Node × Node))
  deriving Inhabited

namespace Node

/-- A value that is not there at all. -/
def empty : Node := scalar none .plain ""

mutual

/-- The number of scalars and aliases, and twice the number of collections. -/
def extent : Node → Nat
  | reference _ => 1
  | scalar .. => 1
  | sequence _ items => 2 + extentOfItems items
  | mapping _ entries => 2 + extentOfEntries entries

def extentOfItems : List Node → Nat
  | [] => 0
  | item :: items => item.extent + extentOfItems items

def extentOfEntries : List (Node × Node) → Nat
  | [] => 0
  | (key, value) :: entries => key.extent + value.extent + extentOfEntries entries

end

end Node

/-- A document with the nodes that aliases may stand for. -/
structure Document where
  root : Node
  /-- The anchored nodes by the number that aliases use. -/
  targets : List (Nat × Node) := []

end ResultCache.Yaml
