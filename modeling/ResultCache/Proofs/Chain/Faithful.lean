import ResultCache.Proofs.Chain.Layers
import ResultCache.Proofs.Tier.Faithful

/-! Chains find only what was put into them. Passes of the queue and all that a program does to the
queue itself leave what is stored as it is. -/
namespace ResultCache.Chain
variable {K V : Type} [BEq K] [Hashable K] [BEq V] [Hashable V]

/-- The value that could be found under a key, if it is still alive. -/
def stored : Chain K V → K → Option V
  | strong stack, k => stack.inner.entries[k]?
  | weak stack, k => stack.inner.contents.stored k

theorem stored_of_tier {c : Chain K V} {t : Tier K V} (h : c.tier? = some t) (k : K) :
    c.stored k = t.contents.stored k := by
  cases c with
  | strong stack => cases h
  | weak stack =>
    cases h
    rfl

theorem stored_ofLayers (name : String) (layers : List Layer) (k : K) :
    (ofLayers name layers : Chain K V).stored k = none := by
  rcases ofLayers_inner (K := K) (V := V) name layers with
    ⟨stack, hc, hs⟩ | ⟨stack, pinCount, under, hc, hs, hu⟩
  · rw [hc, stored, hs]
    exact Std.HashMap.getElem?_empty
  · rw [hc, stored, hs, Tier.contents, Tier.Contents.stored, hu]
    exact congrArg (Option.map Handle.referent) Std.HashMap.getElem?_empty

theorem stored_onTier {α : Type} {f : Tier K V → α × Tier K V} {c c' : Chain K V} {answer : α}
    (hf : ∀ t k, (f t).2.contents.stored k = t.contents.stored k)
    (h : c.onTier? f = some (answer, c')) (k : K) : c'.stored k = c.stored k := by
  cases c with
  | strong stack => cases h
  | weak stack =>
    cases h
    rw [stored, Stack.inner_mapInner]
    exact hf stack.inner k

theorem stored_onQueue {α : Type} {f : Queue K V → α × Queue K V} {c c' : Chain K V} {answer : α}
    (h : c.onQueue? f = some (answer, c')) (k : K) : c'.stored k = c.stored k :=
  stored_onTier (fun _ _ => rfl) h k

theorem stored_collect {inUse : V → Bool} {c c' : Chain K V} {keys : List K}
    (h : c.collect? inUse = some (keys, c')) (k : K) : c'.stored k = c.stored k :=
  stored_onTier (Tier.stored_collect inUse) h k

variable [EquivBEq K] [LawfulHashable K]

theorem faithful (inUse : V → Bool) :
    Cache.Faithful (stored : Chain K V → K → Option V) inUse where
  put {c k v k' v'} hv := by
    cases c with
    | strong stack => exact Store.faithful.stack.put hv
    | weak stack => exact (Tier.faithful inUse).stack.put hv
  get {c k k' v'} hv := by
    cases c with
    | strong stack => exact Store.faithful.stack.get hv
    | weak stack => exact (Tier.faithful inUse).stack.get hv
  get_none {c k k'} ha hk := by
    cases c with
    | strong stack => exact Store.faithful.stack.get_none ha hk
    | weak stack => exact (Tier.faithful inUse).stack.get_none ha hk
  get_some {c k k' v} ha hk := by
    cases c with
    | strong stack => exact Store.faithful.stack.get_some ha hk
    | weak stack => exact (Tier.faithful inUse).stack.get_some ha hk
  remove {c k k' v'} hv := by
    cases c with
    | strong stack => exact Store.faithful.stack.remove hv
    | weak stack => exact (Tier.faithful inUse).stack.remove hv
  remove_some {c k k' v} ha hk := by
    cases c with
    | strong stack => exact Store.faithful.stack.remove_some ha hk
    | weak stack => exact (Tier.faithful inUse).stack.remove_some ha hk
  size {c k' v'} hv := by
    cases c with
    | strong stack => exact Store.faithful.stack.size hv
    | weak stack => exact (Tier.faithful inUse).stack.size hv
  clear {c k'} := by
    cases c with
    | strong stack => exact Store.faithful.stack.clear
    | weak stack => exact (Tier.faithful inUse).stack.clear

end ResultCache.Chain
