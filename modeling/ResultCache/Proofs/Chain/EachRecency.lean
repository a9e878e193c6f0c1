import ResultCache.Proofs.Stack.EachRecency
import ResultCache.Proofs.Tier.Beneath

/-! Properties that all recency layers of a chain share, those beneath a weak tier and those around it. -/
namespace ResultCache
variable {K V : Type} [BEq K] [Hashable K] {P Q : Nat → Recency K → Prop}

/-- The layers up to the first weak one. -/
def Layer.beneathWeak : List Layer → List Layer
  | [] => []
  | .weak _ :: _ => []
  | layer :: layers => layer :: beneathWeak layers

theorem Layer.beneathWeak_append {beneath : List Layer} (pinCount : Nat) (around : List Layer)
    (h : ∀ n, .weak n ∉ beneath) : beneathWeak (beneath ++ .weak pinCount :: around) = beneath := by
  induction beneath with
  | nil => rfl
  | cons layer beneath ih =>
    have hrest := ih fun n hn => h n (List.mem_cons_of_mem _ hn)
    cases layer with
    | lru capacity => exact congrArg (Layer.lru capacity :: ·) hrest
    | weak n => exact (h n List.mem_cons_self).elim
    | logging => exact congrArg (Layer.logging :: ·) hrest

namespace Tier
variable [BEq V] [Hashable V] {t : Tier K V}

/-- What a request does to the layers beneath a tier is what it would do to them by itself. -/
theorem eachRecency_change (h : t.under.EachRecency P) (inUse : V → Bool) (request : Request K V)
    (hQ : ∀ capacity recency, P capacity recency → Q capacity (recency.after capacity request)) :
    (request.run inUse t).cache.under.EachRecency Q := by
  have hbeneath : ∀ capacity recency, P capacity recency →
      Q capacity (recency.after capacity request.beneath) := by
    cases request <;> exact hQ
  obtain ⟨dead, hunder⟩ := t.under_run inUse request
  rw [hunder]
  apply Cache.removeEach_preserves fun _ k hq => hq.remove () k
  refine Stack.EachRecency.change ?_ () request.beneath hbeneath
  exact Cache.removeEach_preserves (fun _ k hp => hp.remove () k) h _

theorem eachRecency_removeEach (h : t.under.EachRecency P) (inUse : V → Bool) (keys : List K) :
    (Cache.removeEach inUse t keys).under.EachRecency P :=
  Cache.removeEach_preserves (P := fun t : Tier K V => t.under.EachRecency P)
    (fun _ k hp => eachRecency_change hp inUse (.remove k) fun _ _ hp => hp) h keys

end Tier

namespace Chain
variable [BEq V] [Hashable V]

def EachRecency (P : Nat → Recency K → Prop) : Chain K V → Prop
  | strong stack => stack.EachRecency P
  | weak stack => stack.EachRecency P ∧ stack.inner.under.EachRecency P

namespace EachRecency
variable {c : Chain K V}

theorem ofLayers (name : String) {layers : List Layer}
    (hP : ∀ capacity, .lru capacity ∈ layers → P capacity .empty) :
    (Chain.ofLayers name layers : Chain K V).EachRecency P := by
  rcases Layer.weak_cases layers with h | ⟨beneath, pinCount, around, rfl, h⟩
  · rw [ofLayers_strong name h]
    exact Stack.EachRecency.withLayers (.core _) hP
  · rw [ofLayers_weak name pinCount around h]
    refine ⟨.withLayers (.core _) fun capacity hc => ?_, ?_⟩
    · exact hP capacity (List.mem_append_right _ (List.mem_cons_of_mem _ hc))
    · rw [Stack.inner_withLayers]
      exact .withLayers (.core _) fun capacity hc => hP capacity (List.mem_append_left _ hc)

/-- What holds of the fresh recency layers beneath the weak one holds of those in the tier. -/
theorem under_ofLayers {name : String} {layers : List Layer} {t : Tier K V}
    (hP : ∀ capacity, .lru capacity ∈ Layer.beneathWeak layers → P capacity .empty)
    (ht : (Chain.ofLayers name layers : Chain K V).tier? = some t) : t.under.EachRecency P := by
  rcases Layer.weak_cases layers with h | ⟨beneath, pinCount, around, rfl, h⟩
  · rw [ofLayers_strong name h] at ht
    cases ht
  · rw [ofLayers_weak name pinCount around h] at ht
    rw [Layer.beneathWeak_append pinCount around h] at hP
    cases ht
    rw [Stack.inner_withLayers]
    exact .withLayers (.core _) hP

theorem mapTier {f : Tier K V → Tier K V} (h : c.EachRecency P) (hf : ∀ t, (f t).under = t.under) :
    (c.mapTier f).EachRecency P := by
  cases c with
  | strong stack => exact h
  | weak stack =>
    refine ⟨h.1.mapInner, ?_⟩
    rw [Stack.inner_mapInner, hf]
    exact h.2

/-- A request changes each layer by itself, whether it is beneath the tier or around it. -/
theorem change (h : c.EachRecency P) (inUse : V → Bool) (request : Request K V)
    (hQ : ∀ capacity recency, P capacity recency → Q capacity (recency.after capacity request)) :
    (request.run inUse c).cache.EachRecency Q := by
  cases c with
  | strong stack =>
    rw [run_strong]
    exact Stack.EachRecency.change h () request hQ
  | weak stack =>
    rw [run_weak]
    refine ⟨h.1.change inUse request hQ, ?_⟩
    rw [(Stack.run_inner inUse stack request).1]
    exact Tier.eachRecency_removeEach (Tier.eachRecency_change h.2 inUse request hQ) inUse _

theorem put (h : c.EachRecency P) (inUse : V → Bool) (k : K) (v : V)
    (hQ : ∀ capacity recency, P capacity recency → Q capacity (recency.track capacity k).2) :
    (c.put inUse k v).cache.EachRecency Q :=
  h.change inUse (.put k v) hQ

theorem run (h : c.EachRecency P) (inUse : V → Bool) (request : Request K V)
    (hP : Recency.Outlasts P request) : (request.run inUse c).cache.EachRecency P :=
  h.change inUse request fun _ _ hp => hP.after hp

end EachRecency
end Chain
end ResultCache
