import ResultCache.Proofs.Chain.Tracing
import ResultCache.Proofs.Tier.Contents

/-! The layers of a chain as a list. A chain of fresh layers lists the layers it was made of, and clearing
a chain leaves what stacking the listed layers afresh would give, but for the counts of calls. -/
namespace ResultCache

namespace Stack
variable {σ ω K V : Type} [BEq K] [Hashable K]

/-- The layers with their present capacities, the innermost first. -/
def layers : Stack σ K → List Layer
  | core _ => []
  | lru capacity _ under => under.layers ++ [.lru capacity]
  | logging _ under => under.layers ++ [.logging]

theorem weak_not_mem_layers (s : Stack σ K) (n : Nat) : .weak n ∉ s.layers := by
  induction s with
  | core cache => exact List.not_mem_nil
  | lru capacity recency under ih =>
    rw [layers, List.mem_append, not_or]
    exact ⟨ih, by simp⟩
  | logging stats under ih =>
    rw [layers, List.mem_append, not_or]
    exact ⟨ih, by simp⟩

theorem withLayers_append (s : Stack σ K) (layers more : List Layer) :
    s.withLayers (layers ++ more) = (s.withLayers layers).withLayers more := by
  induction layers generalizing s with
  | nil => rfl
  | cons layer layers ih => cases layer <;> exact ih _

theorem layers_withLayers (s : Stack σ K) {more : List Layer} (h : ∀ n, .weak n ∉ more) :
    (s.withLayers more).layers = s.layers ++ more := by
  induction more generalizing s with
  | nil => exact (List.append_nil _).symm
  | cons layer more ih =>
    have hmore : ∀ n, .weak n ∉ more := fun n hn => h n (List.mem_cons_of_mem _ hn)
    cases layer with
    | lru capacity => exact (ih (s.withLru capacity) hmore).trans (List.append_assoc _ _ _)
    | weak n => exact (h n List.mem_cons_self).elim
    | logging => exact (ih s.withLogging hmore).trans (List.append_assoc _ _ _)

variable [Cache σ ω K V] {world : ω}

theorem layers_remove (world : ω) (s : Stack σ K) (k : K) : (s.remove world k).cache.layers = s.layers := by
  induction s with
  | core cache => rfl
  | lru capacity recency under ih => exact congrArg (· ++ [.lru capacity]) ih
  | logging stats under ih => exact congrArg (· ++ [.logging]) ih

/-- If the cache inside is as good as new after a clear, the stack is. -/
theorem beside_clear {R : σ → σ → Prop} {s : Stack σ K} {fresh : σ}
    (h : R (Cache.clear world s.inner).cache fresh) :
    Beside R (s.clear world).cache ((core fresh).withLayers s.layers) := by
  induction s with
  | core cache => exact .core h
  | lru capacity recency under ih =>
    rw [layers, withLayers_append]
    exact .lru capacity .empty (ih h)
  | logging stats under ih =>
    rw [layers, withLayers_append]
    exact .logging stats {} (ih h)

end Stack

open Stack (Beside)
variable {K V : Type} [BEq K] [Hashable K]

private theorem Tier.layers_removeAll (under : Stack (Store K (Handle K V)) K) (keys : List K) :
    (removeAll under keys).cache.layers = under.layers := by
  induction keys generalizing under with
  | nil => rfl
  | cons k keys ih => exact (ih _).trans (Stack.layers_remove () under k)

private theorem Store.beside_clear {stack : Stack (Store K V) K} {name : String}
    (h : stack.inner.name = name) :
    Beside (fun a b => b = a) (stack.clear ()).cache ((Stack.core { name }).withLayers stack.layers) :=
  Stack.beside_clear (congrArg (Store.mk · ∅) h.symm)

variable [BEq V] [Hashable V]

private theorem Tier.alike_clear {t : Tier K V} {name : String} (h : t.under.inner.name = name) :
    t.clear.cache.Alike
      { pinCount := t.pinCount, under := (Stack.core { name }).withLayers t.under.layers } := by
  have hname : (removeAll t.under t.queue.pending).cache.inner.name = name := by
    rw [removeAll_inner]
    exact h
  have hunder := Store.beside_clear hname
  rw [layers_removeAll] at hunder
  exact ⟨hunder⟩

namespace Chain

/-- The layers with their present capacities and numbers of pins, the innermost first. -/
def layers : Chain K V → List Layer
  | strong stack => stack.layers
  | weak stack => stack.inner.under.layers ++ .weak stack.inner.pinCount :: stack.layers

/-- A chain of fresh layers, one of them weak at most, consists of these layers. -/
theorem layers_ofLayers_strong (name : String) {layers : List Layer} (h : ∀ n, .weak n ∉ layers) :
    (ofLayers name layers : Chain K V).layers = layers := by
  rw [ofLayers_strong name h]
  exact Stack.layers_withLayers _ h

theorem layers_ofLayers_weak (name : String) {beneath around : List Layer} (pinCount : Nat)
    (hbeneath : ∀ n, .weak n ∉ beneath) (haround : ∀ n, .weak n ∉ around) :
    (ofLayers name (beneath ++ .weak pinCount :: around) : Chain K V).layers =
      beneath ++ .weak pinCount :: around := by
  rw [ofLayers_weak name pinCount around hbeneath, layers, Stack.inner_withLayers,
    Stack.layers_withLayers _ haround]
  change ((Stack.core _).withLayers beneath).layers ++ _ = _
  rw [Stack.layers_withLayers _ hbeneath]
  rfl

theorem owners_ofLayers (name : String) (layers : List Layer) (v : V) :
    (ofLayers name layers : Chain K V).owners v = 0 := by
  rcases ofLayers_inner (K := K) (V := V) name layers with
    ⟨stack, hc, hs⟩ | ⟨stack, pinCount, under, hc, hs, -⟩
  · rw [hc, owners, hs, Store.values, Std.HashMap.toList_empty]
    rfl
  · have hpins : (Pins.empty : Pins V).count v = 0 := Bag.count_empty v
    have hqueue : ({} : Queue K V).registrations v = 0 := Bag.count_empty v
    rw [hc, owners, hs, Tier.owners, hpins, hqueue]

/-- Clearing leaves a chain that is as good as one stacked afresh from the same layers. -/
theorem alike_clear (c : Chain K V) (inUse : V → Bool) :
    (c.clear inUse).cache.Alike (.ofLayers c.name c.layers) := by
  cases c with
  | strong stack =>
    rw [layers, ofLayers_strong _ stack.weak_not_mem_layers]
    exact .strong (Store.beside_clear stack.name_inner.symm)
  | weak stack =>
    rw [layers, ofLayers_weak _ _ _ stack.inner.under.weak_not_mem_layers]
    refine .weak (Stack.beside_clear (Tier.alike_clear ?_))
    exact (stack.name_inner.trans stack.inner.under.name_inner).symm

end Chain
end ResultCache
