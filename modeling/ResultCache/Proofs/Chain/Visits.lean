import ResultCache.Proofs.Chain.Layers
import ResultCache.Proofs.Tier.Asked

/-! What the logging layers of a chain count. Those beneath a weak tier get what the tier asks for, those around it
what the program and the recency layers ask for. -/
namespace ResultCache

namespace Stack
variable {σ K : Type} [BEq K] [Hashable K]

@[simp] theorem stats_mapInner (f : σ → σ) (s : Stack σ K) : (s.mapInner f).stats = s.stats := by
  induction s with
  | core cache => rfl
  | lru capacity recency under ih => exact ih
  | logging stats under ih => exact congrArg (stats :: ·) ih

theorem stats_withLayers (s : Stack σ K) (layers : List Layer) :
    (s.withLayers layers).stats = List.replicate (layers.count .logging) ({} : Stats) ++ s.stats := by
  induction layers generalizing s with
  | nil => rfl
  | cons layer layers ih =>
    cases layer with
    | lru capacity =>
      have hother : Layer.lru capacity ≠ .logging := nofun
      rw [List.count_cons_of_ne hother]
      exact ih (s.withLru capacity)
    | weak pinCount =>
      have hother : Layer.weak pinCount ≠ .logging := nofun
      rw [List.count_cons_of_ne hother]
      exact ih s
    | logging =>
      have hrest := ih s.withLogging
      rw [withLayers, hrest, List.count_cons_self, List.replicate_succ', List.append_assoc]
      rfl

theorem stats_setCapacity? {s t : Stack σ K} {layer capacity : Nat} (h : s.setCapacity? layer capacity = some t) :
    t.stats = s.stats ∧ t.inner = s.inner := by
  induction s generalizing t with
  | core cache => cases h
  | lru old recency under ih =>
    rw [setCapacity?] at h
    split at h
    · cases h
      exact ⟨rfl, rfl⟩
    · obtain ⟨under', hunder, rfl⟩ := Option.map_eq_some_iff.mp h
      have hkept := ih hunder
      exact hkept
  | logging stats under ih =>
    obtain ⟨under', hunder, rfl⟩ := Option.map_eq_some_iff.mp h
    obtain ⟨hstats, hinner⟩ := ih hunder
    exact ⟨congrArg (stats :: ·) hstats, hinner⟩

end Stack

namespace Chain
variable {K V : Type} [BEq K] [Hashable K] [BEq V] [Hashable V]

/-- The counts of the logging layers, those of the outermost first. -/
def stats : Chain K V → List Stats
  | strong stack => stack.stats
  | weak stack => stack.stats ++ stack.inner.under.stats

/-- The calls that each logging layer receives in the course of some requests, the outermost layer first. -/
def visits (inUse : V → Bool) : Chain K V → List (Request K V) → List (List (Visit K))
  | strong stack, requests => stack.visits () requests
  | weak stack, requests => stack.visits inUse requests ++
      stack.inner.under.visits () (stack.inner.asksAll inUse (stack.reaching requests))

/-- All logging layers of a fresh chain begin with no calls. -/
theorem stats_ofLayers (name : String) (layers : List Layer) :
    (ofLayers name layers : Chain K V).stats = List.replicate (layers.count .logging) ({} : Stats) := by
  rcases Layer.weak_cases layers with h | ⟨beneath, pinCount, around, rfl, h⟩
  · rw [ofLayers_strong name h]
    exact (Stack.stats_withLayers _ layers).trans (List.append_nil _)
  · have hother : Layer.weak pinCount ≠ .logging := nofun
    rw [ofLayers_weak name pinCount around h, stats, Stack.inner_withLayers, Stack.stats_withLayers]
    change _ ++ [] ++ ((Stack.core _).withLayers beneath).stats = _
    rw [Stack.stats_withLayers, List.count_append, List.count_cons_of_ne hother, List.append_nil]
    change _ ++ (_ ++ []) = _
    rw [List.append_nil, List.replicate_append_replicate, Nat.add_comm]

theorem stats_mapTier (c : Chain K V) {f : Tier K V → Tier K V} (hf : ∀ t, (f t).under = t.under) :
    (c.mapTier f).stats = c.stats := by
  cases c with
  | strong stack => rfl
  | weak stack => simp [mapTier, stats, hf]

/-- A new capacity changes no counts. -/
theorem stats_setCapacity? {c d : Chain K V} {layer capacity : Nat} (h : c.setCapacity? layer capacity = some d) :
    d.stats = c.stats := by
  cases c with
  | strong stack =>
    obtain ⟨stack', hs, rfl⟩ := Option.map_eq_some_iff.mp h
    exact (Stack.stats_setCapacity? hs).1
  | weak stack =>
    rw [setCapacity?] at h
    split at h
    · obtain ⟨stack', hs, rfl⟩ := Option.map_eq_some_iff.mp h
      obtain ⟨hstats, hinner⟩ := Stack.stats_setCapacity? hs
      rw [stats, hstats, hinner, stats]
    · obtain ⟨under, hs, rfl⟩ := Option.map_eq_some_iff.mp h
      rw [stats, Stack.stats_mapInner, Stack.inner_mapInner, (Stack.stats_setCapacity? hs).1, stats]

theorem stats_setPinCount? {c d : Chain K V} {layer pinCount : Nat} (h : c.setPinCount? layer pinCount = some d) :
    d.stats = c.stats := by
  cases c with
  | strong stack => cases h
  | weak stack =>
    rw [setPinCount?] at h
    split at h
    · cases h
      exact stats_mapTier (.weak stack) fun _ => rfl
    · cases h

theorem stats_unwrap? {c d : Chain K V} (h : c.unwrap? = some d) : d.stats = c.stats := by
  cases c with
  | strong stack =>
    obtain ⟨stack', hs, rfl⟩ := Option.map_eq_some_iff.mp h
    cases stack <;> cases hs
    rfl
  | weak stack =>
    obtain ⟨stack', hs, rfl⟩ := Option.map_eq_some_iff.mp h
    cases stack <;> cases hs
    rfl

theorem length_visits (inUse : V → Bool) (c : Chain K V) (requests : List (Request K V)) :
    (c.visits inUse requests).length = c.stats.length := by
  cases c with
  | strong stack => exact Stack.length_visits () stack requests
  | weak stack => rw [visits, stats, List.length_append, List.length_append, Stack.length_visits,
      Stack.length_visits]

/-- In the course of some requests every logging layer counts the calls that it receives. -/
theorem stats_runAll (inUse : V → Bool) (c : Chain K V) (requests : List (Request K V)) :
    (Request.runAll inUse c requests).cache.stats = List.zipWith Stats.plus c.stats (c.visits inUse requests) := by
  cases c with
  | strong stack =>
    rw [Request.runAll_through (run_strong inUse)]
    exact Stack.stats_runAll () stack requests
  | weak stack =>
    have hlength := Stack.length_visits inUse stack requests
    rw [Request.runAll_through (run_weak inUse), stats, Stack.stats_runAll, Stack.inner_runAll, Tier.under_asksAll, Stack.stats_runAll, stats,
      visits, List.zipWith_append hlength.symm]

end Chain
end ResultCache
