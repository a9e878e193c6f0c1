import ResultCache.Tier

/-!
Chains, the caches that a program works with. A chain is either storage that owns its values, or a
weak tier over storage of handles; layers may surround the storage and the tier alike, so there is
at most one weak tier in a chain.
-/

namespace ResultCache

inductive Chain (K V : Type) [BEq K] [Hashable K] [BEq V] [Hashable V] where
  | strong (stack : Stack (Store K V) K)
  | weak (stack : Stack (Tier K V) K)

/-- The layers that a chain can be made of. -/
inductive Layer where
  | lru (capacity : Nat)
  | weak (pinCount : Nat)
  | logging
  deriving DecidableEq

/-- What a layer shows of its state. Keys are listed only as far as they were asked about. -/
inductive LayerView (K : Type) where
  | memory (size : Nat) (contained : List K)
  | lru (capacity tracked : Nat) (listed : List K)
  | weak (pinCount pinned : Nat)
  | logging (stats : Stats)

namespace Stack

variable {σ K : Type} [BEq K] [Hashable K]

/-- Surrounds a stack with fresh layers, the first one innermost. There is no weak tier to be had
here, so weak layers are passed over. -/
def withLayers (s : Stack σ K) : List Layer → Stack σ K
  | [] => s
  | .lru capacity :: layers => (s.withLru capacity).withLayers layers
  | .logging :: layers => s.withLogging.withLayers layers
  | .weak _ :: layers => s.withLayers layers

/-- The layers around the inner cache, the innermost first. -/
def views (keys : List K) : Stack σ K → List (LayerView K)
  | core _ => []
  | lru capacity recency under =>
    under.views keys ++ [.lru capacity recency.size (keys.filter recency.contains)]
  | logging stats under => under.views keys ++ [.logging stats]

end Stack

namespace Store

variable {K V : Type} [BEq K] [Hashable K]

def view (keys : List K) (s : Store K V) : LayerView K :=
  .memory s.entries.size (keys.filter s.contains)

end Store

namespace Chain

variable {K V : Type} [BEq K] [Hashable K] [BEq V] [Hashable V]

/-- Surrounds a stack over storage of handles with layers up to the first weak one, and the tier
made there with the others. Without a weak layer there is no tier. -/
def tierOver? (s : Stack (Store K (Handle K V)) K) : List Layer → Option (Stack (Tier K V) K)
  | [] => none
  | .weak pinCount :: layers =>
    some ((Stack.core ({ pinCount, under := s } : Tier K V)).withLayers layers)
  | .lru capacity :: layers => tierOver? (s.withLru capacity) layers
  | .logging :: layers => tierOver? s.withLogging layers

/-- Stacks fresh layers one by one over empty storage, the first one innermost. -/
def ofLayers (name : String) (layers : List Layer) : Chain K V :=
  match tierOver? (.core { name }) layers with
  | some stack => .weak stack
  | none => .strong ((Stack.core { name }).withLayers layers)

def name : Chain K V → String
  | strong stack => stack.name
  | weak stack => stack.name

/-- In every call `inUse` tells which values are owned outside the chain. -/
def put (inUse : V → Bool) : Chain K V → K → V → Outcome (Chain K V) Unit
  | strong stack, k, v => (stack.put () k v).map .strong
  | weak stack, k, v => (stack.put inUse k v).map .weak

def get (inUse : V → Bool) : Chain K V → K → Outcome (Chain K V) (Option V)
  | strong stack, k => (stack.get () k).map .strong
  | weak stack, k => (stack.get inUse k).map .weak

def remove (inUse : V → Bool) : Chain K V → K → Outcome (Chain K V) (Option V)
  | strong stack, k => (stack.remove () k).map .strong
  | weak stack, k => (stack.remove inUse k).map .weak

def size (inUse : V → Bool) : Chain K V → Outcome (Chain K V) Nat
  | strong stack => (stack.size ()).map .strong
  | weak stack => (stack.size inUse).map .weak

def clear (inUse : V → Bool) : Chain K V → Outcome (Chain K V) Unit
  | strong stack => (stack.clear ()).map .strong
  | weak stack => (stack.clear inUse).map .weak

/-- How many times the chain owns a value. Handles own nothing. -/
def owners (v : V) : Chain K V → Nat
  | strong stack => stack.inner.values.count v
  | weak stack => stack.inner.owners v

def tier? : Chain K V → Option (Tier K V)
  | strong _ => none
  | weak stack => some stack.inner

/-- The queue of the weak tier. Whoever builds a chain gets a handle on this very queue, shared with
the tier; it is rendered here as the one place where the queue is, so work on the handle is work on
the tier's queue. -/
def queue? (c : Chain K V) : Option (Queue K V) := c.tier?.map Tier.queue

def onTier? {α : Type} (f : Tier K V → α × Tier K V) : Chain K V → Option (α × Chain K V)
  | strong _ => none
  | weak stack =>
    let (answer, tier) := f stack.inner
    some (answer, .weak (stack.mapInner fun _ => tier))

def onQueue? {α : Type} (f : Queue K V → α × Queue K V) (c : Chain K V) :
    Option (α × Chain K V) :=
  c.onTier? fun tier =>
    let (answer, queue) := f tier.queue
    (answer, { tier with queue })

/-- One pass of the queue over the values that neither a pin nor the world owns. -/
def collect? (inUse : V → Bool) (c : Chain K V) : Option (List K × Chain K V) :=
  c.onTier? (·.collect inUse)

/-- Gives a recency layer another capacity. Layers are counted from the inside, and the storage is
number zero. -/
def setCapacity? (layer capacity : Nat) : Chain K V → Option (Chain K V)
  | strong stack => (stack.setCapacity? layer capacity).map .strong
  | weak stack =>
    let tier := stack.inner
    if tier.under.height < layer then
      (stack.setCapacity? (layer - tier.under.height - 1) capacity).map .weak
    else
      (tier.under.setCapacity? layer capacity).map fun under =>
        .weak (stack.mapInner fun tier => { tier with under })

/-- Changes the number of pins, if the layer with this number is the weak tier. -/
def setPinCount? (layer pinCount : Nat) : Chain K V → Option (Chain K V)
  | strong _ => none
  | weak stack =>
    if layer = stack.inner.under.height + 1 then
      some (.weak (stack.mapInner fun tier => { tier with pinCount }))
    else none

def unwrap? : Chain K V → Option (Chain K V)
  | strong stack => stack.unwrap?.map .strong
  | weak stack => stack.unwrap?.map .weak

def views (keys : List K) : Chain K V → List (LayerView K)
  | strong stack => stack.inner.view keys :: stack.views keys
  | weak stack =>
    let tier := stack.inner
    tier.under.inner.view keys :: tier.under.views keys ++
      .weak tier.pinCount tier.pins.size :: stack.views keys

end Chain
end ResultCache
