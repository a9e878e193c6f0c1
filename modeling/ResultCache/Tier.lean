import ResultCache.Pins
import ResultCache.Queue
import ResultCache.Stack
import ResultCache.Store

/-!
The weak tier stores handles in the cache it surrounds, and leaves the values to a queue. A lookup
pins the value it finds; the ring of pins holds the values found last. Entries of reclaimed values
are dropped when the tier is next used.
-/

namespace ResultCache

structure Tier (K V : Type) [BEq K] [Hashable K] [BEq V] [Hashable V] where
  queue : Queue K V := {}
  pins : Pins V := .empty
  pinCount : Nat
  under : Stack (Store K (Handle K V)) K

namespace Tier

variable {K V : Type} [BEq K] [Hashable K] [BEq V] [Hashable V]

def defaultPinCount : Nat := 256

/-- The number of pins and registrations that keep a value alive. -/
def owners (t : Tier K V) (v : V) : Nat := t.pins.count v + t.queue.registrations v

/-- A value is alive while the world, a pin or a registration owns it. -/
def isAlive (inUse : V → Bool) (t : Tier K V) (v : V) : Bool :=
  inUse v || t.pins.contains v || t.queue.owns v

/-- Pins a value. If there are then too many pins, the oldest one goes. -/
def pin (t : Tier K V) (v : V) : Tier K V :=
  let pins := t.pins.push v
  { t with pins := if t.pinCount < pins.size then pins.dropOldest else pins }

/-- A pass of the queue, to which values that are pinned or in use are not free. -/
def collect (t : Tier K V) (inUse : V → Bool) : List K × Tier K V :=
  let (keys, queue) := t.queue.collect fun v => inUse v || t.pins.contains v
  (keys, { t with queue })

/-- Removes the entries of the reported keys, one after the other. -/
def removeAll (under : Stack (Store K (Handle K V)) K) :
    List K → Outcome (Stack (Store K (Handle K V)) K) Unit
  | [] => ⟨under, (), []⟩
  | k :: keys =>
    let ⟨under, _, events⟩ := under.remove () k
    (removeAll under keys).after events

/-- Takes all reported keys from the queue and drops their entries. -/
def drain (t : Tier K V) : Outcome (Tier K V) Unit :=
  let (keys, queue) := t.queue.drain
  let removed := removeAll t.under keys
  ⟨{ t with queue, under := removed.cache }, (),
    removed.events ++ if keys.isEmpty then [] else [.reclaimed keys.length]⟩

/-- The value is registered first and its handle stored then. -/
def put (t : Tier K V) (k : K) (v : V) : Outcome (Tier K V) Unit :=
  let drained := t.drain
  let (handle, queue) := drained.cache.queue.register k v
  let stored := drained.cache.under.put () k handle
  (stored.map fun under => { drained.cache with queue, under }).after drained.events

/-- A handle whose value is gone is removed, and nothing is found. -/
def get (inUse : V → Bool) (t : Tier K V) (k : K) : Outcome (Tier K V) (Option V) :=
  let ⟨⟨queue, pins, pinCount, under⟩, _, drained⟩ := t.drain
  let ⟨under, found, events⟩ := under.get () k
  let t : Tier K V := { queue, pins, pinCount, under }
  match found with
  | none => ⟨t, none, drained ++ events⟩
  | some handle =>
    if t.isAlive inUse handle.referent then
      ⟨t.pin handle.referent, some handle.referent, drained ++ events⟩
    else
      let removed := t.under.remove () k
      ⟨{ t with under := removed.cache }, none, drained ++ events ++ removed.events⟩

/-- The registration goes together with the entry. -/
def remove (inUse : V → Bool) (t : Tier K V) (k : K) : Outcome (Tier K V) (Option V) :=
  let ⟨⟨queue, pins, pinCount, under⟩, _, drained⟩ := t.drain
  let ⟨under, removed, events⟩ := under.remove () k
  let t : Tier K V := { queue, pins, pinCount, under }
  let live := (removed.map Handle.referent).filter (t.isAlive inUse)
  ⟨{ t with queue := (t.queue.unregister k).2 }, live, drained ++ events⟩

def size (t : Tier K V) : Outcome (Tier K V) Nat :=
  let drained := t.drain
  ((drained.cache.under.size ()).map fun under => { drained.cache with under }).after
    drained.events

/-- Reported keys are still taken from the queue before everything is forgotten. -/
def clear (t : Tier K V) : Outcome (Tier K V) Unit :=
  let drained := { t with pins := .empty }.drain
  ((drained.cache.under.clear ()).map fun under =>
    { drained.cache with queue := .empty, under }).after drained.events

instance : Cache (Tier K V) (V → Bool) K V where
  name t := t.under.name
  put _ := put
  get := get
  remove := remove
  size _ := size
  clear _ := clear

end Tier
end ResultCache
