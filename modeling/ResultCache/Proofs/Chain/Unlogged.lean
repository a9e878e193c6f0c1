import ResultCache.Proofs.Stack.Unlogged

/-! Chains without their logging layers, be these beneath a weak tier or around it. No call and no work on the
queue tells whether they are there, and neither do layers that get other capacities or numbers of pins. -/
namespace ResultCache.Chain
open Layer (place_beneath place_around place_eq_zero_iff place_le)
variable {K V : Type} [BEq K] [Hashable K] [BEq V] [Hashable V]

/-- The number of a layer of a chain that has the given number among those that do not log. -/
def place (c : Chain K V) : Nat → Nat := Layer.place (c.layers.map Layer.logs)

/-- Stacks around tiers, the second without the logging layers of the first, be these around the tier or beneath
it. It is told which layers of the first log, with the tier among them. -/
inductive TiersUnlogged : List Bool → Stack (Tier K V) K → Stack (Tier K V) K → Prop
  | mk {beneath around s t}
    (h : Stack.Unlogged (Tier.Over (Stack.Unlogged (fun a b => b = a) beneath)) around s t) :
    TiersUnlogged (beneath ++ false :: around) s t

abbrev Unlogged (logs : List Bool) : Chain K V → Chain K V → Prop :=
  Over (Stack.Unlogged (fun a b => b = a) logs) (TiersUnlogged logs)

private theorem tiers_tracing (inUse : V → Bool) (beneath around : List Bool) :
    Cache.Tracing (Stack.Unlogged (K := K) (Tier.Over (K := K) (V := V)
      (Stack.Unlogged (fun a b => b = a) beneath)) around) inUse :=
  Stack.Unlogged.tracing (Tier.Over.tracing (Stack.Unlogged.tracing (.eq ())) inUse)

theorem TiersUnlogged.tracing (inUse : V → Bool) (logs : List Bool) :
    Cache.Tracing (TiersUnlogged (K := K) logs) inUse where
  put h k v := by
    obtain ⟨h⟩ := h
    exact ((tiers_tracing inUse _ _).put h k v).imp fun _ _ => .mk
  get h k := by
    obtain ⟨h⟩ := h
    exact ((tiers_tracing inUse _ _).get h k).imp fun _ _ => .mk
  remove h k := by
    obtain ⟨h⟩ := h
    exact ((tiers_tracing inUse _ _).remove h k).imp fun _ _ => .mk
  size h := by
    obtain ⟨h⟩ := h
    exact ((tiers_tracing inUse _ _).size h).imp fun _ _ => .mk
  clear h := by
    obtain ⟨h⟩ := h
    exact ((tiers_tracing inUse _ _).clear h).imp fun _ _ => .mk

namespace Unlogged
variable {logs : List Bool} {c d : Chain K V}

private theorem name (h : c.Unlogged logs d) : c.name = d.name := by
  cases h with
  | strong h => rw [Chain.name, Chain.name, Stack.name_inner, Stack.name_inner, h.inner]
  | @weak s t h =>
    obtain ⟨h⟩ := h
    rw [Chain.name, Chain.name, Stack.name_inner, Stack.name_inner]
    change s.inner.under.name = t.inner.under.name
    rw [Stack.name_inner, Stack.name_inner, h.inner.under.inner]

private theorem owners (h : c.Unlogged logs d) (v : V) : c.owners v = d.owners v := by
  cases h with
  | strong h => rw [Chain.owners, Chain.owners, h.inner]
  | weak h =>
    obtain ⟨h⟩ := h
    exact h.inner.owners v

private theorem onTier? {α : Type} {f : Tier K V → α × Tier K V} (h : c.Unlogged logs d)
    (hf : ∀ {U t u}, t.Over U u → (f t).1 = (f u).1 ∧ (f t).2.Over U (f u).2) :
    Option.Rel (fun x y => x.1 = y.1 ∧ x.2.Unlogged logs y.2) (c.onTier? f) (d.onTier? f) := by
  cases h with
  | strong h => exact .none
  | weak h =>
    obtain ⟨h⟩ := h
    obtain ⟨hanswer, htier⟩ := hf h.inner
    exact .some ⟨hanswer, .weak ⟨h.mapInner fun _ _ _ => htier⟩⟩

theorem indistinct (logs : List Bool) : Indistinct (Unlogged (K := K) (V := V) logs) where
  tracing inUse := Over.tracing (Stack.Unlogged.tracing (.eq ())) (TiersUnlogged.tracing inUse logs)
  name h := h.name
  owners h := h.owners
  onQueue? h _ _ := h.onTier? fun ⟨hunder⟩ => ⟨rfl, ⟨hunder⟩⟩
  collect? h _ := h.onTier? fun ⟨hunder⟩ => ⟨rfl, ⟨hunder⟩⟩

theorem setCapacity? (h : c.Unlogged logs d) (layer capacity : Nat) :
    Option.Rel (Unlogged logs) (c.setCapacity? (Layer.place logs layer) capacity)
      (d.setCapacity? layer capacity) := by
  cases h with
  | strong h => exact rel_map (h.setCapacity? layer capacity) fun _ _ => .strong
  | @weak s t h =>
    obtain @⟨beneath, around, _, _, h⟩ := h
    obtain ⟨hs, ht⟩ := h.inner.under.height
    rw [Chain.setCapacity?, Chain.setCapacity?, hs, ht]
    rcases Nat.lt_or_ge (beneath.count false) layer with haround | hbeneath
    · have hplace := place_around around haround
      have hlayer : beneath.length + 1 + Layer.place around (layer - beneath.count false - 1) - beneath.length - 1 =
          Layer.place around (layer - beneath.count false - 1) := by omega
      rw [if_pos haround, hplace, if_pos (by omega), hlayer]
      exact rel_map (h.setCapacity? _ capacity) fun _ _ hst => .weak ⟨hst⟩
    · rw [place_beneath around hbeneath, if_neg (Nat.not_lt_of_le (place_le hbeneath)),
        if_neg (Nat.not_lt_of_le hbeneath)]
      refine rel_map (h.inner.under.setCapacity? layer capacity) fun a b hab => ?_
      refine .weak ⟨h.mapInner fun t u htu => ?_⟩
      obtain ⟨-⟩ := htu
      exact ⟨hab⟩

theorem setPinCount? (h : c.Unlogged logs d) (layer pinCount : Nat) :
    Option.Rel (Unlogged logs) (c.setPinCount? (Layer.place logs layer) pinCount)
      (d.setPinCount? layer pinCount) := by
  cases h with
  | strong h => exact .none
  | @weak s t h =>
    obtain @⟨beneath, around, _, _, h⟩ := h
    obtain ⟨hs, ht⟩ := h.inner.under.height
    have hplace : Layer.place (beneath ++ false :: around) layer = beneath.length + 1 ↔
        layer = beneath.count false + 1 := by
      rcases Nat.lt_or_ge (beneath.count false) layer with haround | hbeneath
      · have hzero := place_eq_zero_iff around (layer - beneath.count false - 1)
        rw [place_around around haround]
        omega
      · have hle := place_le hbeneath
        rw [place_beneath around hbeneath]
        omega
    rw [Chain.setPinCount?, Chain.setPinCount?, hs, ht]
    by_cases htier : layer = beneath.count false + 1
    · rw [if_pos (hplace.mpr htier), if_pos htier]
      refine .some (.weak ⟨h.mapInner fun t u htu => ?_⟩)
      obtain ⟨hunder⟩ := htu
      exact ⟨hunder⟩
    · rw [if_neg (mt hplace.mp htier), if_neg htier]
      exact .none

/-- A chain of fresh layers, and the chain of those of them that log nothing. -/
theorem ofLayers (name : String) (layers : List Layer) :
    let c : Chain K V := .ofLayers name layers
    c.Unlogged (c.layers.map Layer.logs) (.ofLayers name (layers.filter (· ≠ .logging))) := by
  intro c
  have hfilter : ∀ {layers : List Layer}, (∀ n, .weak n ∉ layers) →
      ∀ n, .weak n ∉ layers.filter (· ≠ .logging) :=
    fun h n hn => h n (List.mem_filter.mp hn).1
  rcases Layer.weak_cases layers with h | ⟨beneath, pinCount, around, rfl, h⟩
  · have hc : c = _ := ofLayers_strong name h
    rw [hc, ofLayers_strong name (hfilter h), Chain.layers]
    refine .strong (.withLayers ?_ layers)
    exact .core rfl
  · have hkept : (beneath ++ .weak pinCount :: around).filter (· ≠ .logging) =
        beneath.filter (· ≠ .logging) ++ .weak pinCount :: around.filter (· ≠ .logging) :=
      List.filter_append beneath _
    have hc : c = _ := ofLayers_weak name pinCount around h
    rw [hc, hkept, ofLayers_weak name pinCount _ (hfilter h), Chain.layers, Stack.inner_withLayers, List.map_append]
    refine .weak ⟨.withLayers (.core ⟨.withLayers ?_ beneath⟩) around⟩
    exact .core rfl

end Unlogged
end ResultCache.Chain
