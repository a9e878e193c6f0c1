import ResultCache.Chain
import ResultCache.Config

/-!
Chains made from configurations. The layers below the weak one surround storage of handles, those
above it surround the tier, and a logging layer goes around everything when it is asked for.
-/

namespace ResultCache.Config

variable {K V : Type} [BEq K] [Hashable K] [BEq V] [Hashable V]

/-- The first weak layer: the layers below it, its number of pins, and the layers above it. -/
def splitAtWeak : List Layer → Option (List Layer × UInt64 × List Layer)
  | [] => none
  | .weak pinCount :: above => some ([], pinCount, above)
  | .lru capacity :: layers =>
    (splitAtWeak layers).map fun (below, pinCount, above) =>
      (.lru capacity :: below, pinCount, above)

def surround {σ : Type} (s : Stack σ K) (layers : List Layer) : Stack σ K :=
  layers.foldl (fun s layer =>
    match layer with
    | .lru capacity => s.withLru capacity.toNat
    | .weak _ => s) s

def logged {σ : Type} (c : Config) (s : Stack σ K) : Stack σ K :=
  if c.logging then s.withLogging else s

/-- The chain of a configuration, which is taken to be valid. -/
def chain (c : Config) : Chain K V :=
  match splitAtWeak c.layers with
  | some (below, pinCount, above) =>
    let under := surround (.core { name := c.id }) below
    let tier : Tier K V := { pinCount := pinCount.toNat, under }
    .weak (c.logged (surround (.core tier) above))
  | none => .strong (c.logged (surround (.core { name := c.id }) c.layers))

def hasWeak (c : Config) : Bool := (splitAtWeak c.layers).isSome

/-- Builds the chain of a valid configuration and reports it. The handle on the queue that comes with
a weak layer is shared with the tier. It is no second result here but `Chain.queue?` of the chain. -/
def build (c : Config) : Except Violation (Chain K V × List Event) :=
  match c.validate with
  | .error violation => .error violation
  | .ok () => .ok (c.chain, [.built c.layers.length c.logging c.hasWeak])

end ResultCache.Config
