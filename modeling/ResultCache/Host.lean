/-!
The program around a cache: it makes values, holds some of them in named slots, and lets go of
them again. Values made apart are different objects even when their contents are equal.
-/

namespace ResultCache

/-- A value with an identity of its own. -/
structure Object (α : Type) where
  id : Nat
  content : α
  deriving DecidableEq

instance {α : Type} : Hashable (Object α) := ⟨fun object => hash object.id⟩

/-- Values held under names, at most one under each. -/
structure Slots (V : Type) where
  entries : List (String × V) := []

namespace Slots

variable {V : Type}

def get? (s : Slots V) (name : String) : Option V := s.entries.lookup name

def release (s : Slots V) (name : String) : Slots V :=
  ⟨s.entries.filter fun entry => entry.1 != name⟩

def hold (s : Slots V) (name : String) (v : V) : Slots V :=
  ⟨(name, v) :: (s.release name).entries⟩

variable [BEq V]

def count (s : Slots V) (v : V) : Nat := s.entries.countP fun entry => entry.2 == v

def inUse (s : Slots V) (v : V) : Bool := s.entries.any fun entry => entry.2 == v

end Slots

structure Host (α : Type) where
  slots : Slots (Object α) := {}
  /-- The number of objects made so far. -/
  made : Nat := 0

/-- Where an action takes its value from. -/
inductive Source (α : Type) where
  | fresh (content : α)
  | slot (name : String)

namespace Host

variable {α : Type}

/-- Makes an object unlike all others. -/
def make (h : Host α) (content : α) : Object α × Host α :=
  (⟨h.made, content⟩, { h with made := h.made + 1 })

def take? (h : Host α) : Source α → Option (Object α × Host α)
  | .fresh content => some (h.make content)
  | .slot name => (h.slots.get? name).map (·, h)

def hold (h : Host α) (name : String) (content : α) : Host α :=
  let (object, h) := h.make content
  { h with slots := h.slots.hold name object }

def release (h : Host α) (name : String) : Host α := { h with slots := h.slots.release name }

def keep (h : Host α) : Option String → Option (Object α) → Host α
  | some name, some object => { h with slots := h.slots.hold name object }
  | _, _ => h

variable [DecidableEq α]

def inUse (h : Host α) (object : Object α) : Bool := h.slots.inUse object

end Host
end ResultCache
