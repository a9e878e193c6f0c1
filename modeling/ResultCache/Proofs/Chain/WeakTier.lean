import ResultCache.Proofs.Chain.Layers
import ResultCache.Proofs.Tier.Contents

/-! The weak tier of a chain. There is one if a layer is weak. Every request reaches it, and the layers
around it may then have it remove more keys. -/
namespace ResultCache.Chain
variable {K V : Type} [BEq K] [Hashable K] [BEq V] [Hashable V]

theorem tier?_ofLayers_weak (name : String) {beneath : List Layer} (pinCount : Nat) (around : List Layer)
    (h : ∀ n, .weak n ∉ beneath) :
    (ofLayers name (beneath ++ .weak pinCount :: around) : Chain K V).tier? =
      some { pinCount, under := (Stack.core { name }).withLayers beneath } := by
  rw [ofLayers_weak name pinCount around h, tier?, Stack.inner_withLayers]
  rfl

theorem tier?_ofLayers (name : String) {layers : List Layer} {pinCount : Nat}
    (h : .weak pinCount ∈ layers) : ∃ t, (ofLayers name layers : Chain K V).tier? = some t := by
  rcases Layer.weak_cases layers with hnone | ⟨beneath, n, around, rfl, hbeneath⟩
  · exact (hnone pinCount h).elim
  · rw [ofLayers_weak name n around hbeneath]
    exact ⟨_, rfl⟩

theorem contents_ofLayers {name : String} {layers : List Layer} {t : Tier K V}
    (h : (ofLayers name layers : Chain K V).tier? = some t) : t.contents = .empty := by
  rcases ofLayers_inner (K := K) (V := V) name layers with
    ⟨stack, hc, -⟩ | ⟨stack, pinCount, under, hc, hs, hu⟩
  · rw [hc] at h
    cases h
  · rw [hc] at h
    cases h
    rw [hs, Tier.contents, hu]
    rfl

theorem tier?_mapTier (c : Chain K V) (f : Tier K V → Tier K V) :
    (c.mapTier f).tier? = c.tier?.map f := by
  cases c with
  | strong stack => rfl
  | weak stack => exact congrArg some (Stack.inner_mapInner f stack)

theorem mapTier_congr {c : Chain K V} {t : Tier K V} (h : c.tier? = some t) {f g : Tier K V → Tier K V}
    (hf : f t = g t) : c.mapTier f = c.mapTier g := by
  cases c with
  | strong stack => rfl
  | weak stack =>
    cases h
    exact congrArg weak (Stack.mapInner_congr hf)

/-- Work on the tier is answered by the tier and changes nothing else. -/
theorem onTier?_of_tier {c : Chain K V} {t : Tier K V} (h : c.tier? = some t) {α : Type}
    (f : Tier K V → α × Tier K V) :
    ∃ c', c.onTier? f = some ((f t).1, c') ∧ c'.tier? = some (f t).2 := by
  cases c with
  | strong stack => cases h
  | weak stack =>
    cases h
    exact ⟨_, rfl, congrArg some (Stack.inner_mapInner _ stack)⟩

theorem owners_of_tier {c : Chain K V} {t : Tier K V} (h : c.tier? = some t) (v : V) :
    c.owners v = t.owners v := by
  cases c with
  | strong stack => cases h
  | weak stack =>
    cases h
    rfl

theorem tier?_run {c : Chain K V} {t : Tier K V} (h : c.tier? = some t) (inUse : V → Bool)
    (request : Request K V) : ∃ dropped, (request.run inUse c).cache.tier? =
      some (Cache.removeEach inUse (request.run inUse t).cache dropped) := by
  cases c with
  | strong stack => cases h
  | weak stack =>
    cases h
    refine ⟨stack.evictedBy request, ?_⟩
    rw [run_weak, tier?, (Stack.run_inner inUse stack request).1]

/-- A lookup finds what the tier finds. -/
theorem get_of_tier {c : Chain K V} {t : Tier K V} (h : c.tier? = some t) (inUse : V → Bool) (k : K) :
    (c.get inUse k).answer = t.contents.drain.find inUse k := by
  cases c with
  | strong stack => cases h
  | weak stack =>
    cases h
    exact (Stack.get_inner inUse stack k).2.trans (Tier.get_contents inUse stack.inner k).2

/-- A removal finds the same, and is a removal of the tier. -/
theorem remove_of_tier {c : Chain K V} {t : Tier K V} (h : c.tier? = some t) (inUse : V → Bool) (k : K) :
    (c.remove inUse k).answer = t.contents.drain.find inUse k ∧
      (c.remove inUse k).cache.tier? = some (t.remove inUse k).cache := by
  cases c with
  | strong stack => cases h
  | weak stack =>
    cases h
    obtain ⟨hinner, hanswer⟩ := Stack.remove_inner inUse stack k
    exact ⟨hanswer.trans (Tier.remove_contents inUse stack.inner k).2, congrArg some hinner⟩

end ResultCache.Chain
