import ResultCache.Config

/-! Configurations that are still being read: what was given so far, each field at most once. -/

namespace ResultCache.Config

structure Draft where
  id : Option String := none
  layers : Option (List Layer) := none
  logging : Option Bool := none

/-- Fields that were not given have their default values. -/
def Draft.complete (d : Draft) : Config where
  id := d.id.getD default.id
  layers := d.layers.getD default.layers
  logging := d.logging.getD default.logging

/-- The kinds of layers as they are named in configuration files. -/
inductive Kind where
  | lru
  | weak
  deriving DecidableEq

namespace Kind

def ofName? : String → Option Kind
  | "lru" => some lru
  | "weak" => some weak
  | _ => none

def setting : Kind → String
  | lru => "capacity"
  | weak => "pin_count"

def layer : Kind → Option UInt64 → Layer
  | lru, n => .lru (n.getD defaultCapacity)
  | weak, n => .weak (n.getD defaultPinCount)

end Kind
end ResultCache.Config
