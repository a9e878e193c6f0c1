import ResultCache.Proofs.Chain.Listing
import ResultCache.Proofs.Chain.WeakTier
import ResultCache.Proofs.Config.Validity

/-! What building a configuration gives. The layers are split at the weak one and put around two stores of
different kinds, and the outcome is the chain in which they are stacked one by one. -/
namespace ResultCache.Config

/-- What a program tells a builder. -/
inductive Call where
  | lru (capacity : UInt64)
  | weak (pinCount : UInt64)
  | logging (enabled : Bool)

def call (c : Config) : Call → Config
  | .lru capacity => c.addLayer (.lru capacity)
  | .weak pinCount => c.addLayer (.weak pinCount)
  | .logging enabled => c.withLogging enabled

def Call.layer? : Call → Option Layer
  | lru capacity => some (.lru capacity)
  | weak pinCount => some (.weak pinCount)
  | logging _ => none

def Call.logging? : Call → Option Bool
  | logging enabled => some enabled
  | _ => none

def Layer.made : Layer → ResultCache.Layer
  | lru capacity => .lru capacity.toNat
  | weak pinCount => .weak pinCount.toNat

/-- The layers asked for, the innermost first. A logging layer goes around all others. -/
def stacked (c : Config) : List ResultCache.Layer :=
  c.layers.map Layer.made ++ if c.logging then [.logging] else []

/-- Calls add their layers in order, and the last word on logging stands. -/
theorem foldl_call (c : Config) (calls : List Call) :
    (calls.foldl call c).id = c.id ∧
      (calls.foldl call c).layers = c.layers ++ calls.filterMap Call.layer? ∧
      (calls.foldl call c).logging = (calls.filterMap Call.logging?).getLast?.getD c.logging := by
  induction calls generalizing c with
  | nil => exact ⟨rfl, (List.append_nil _).symm, rfl⟩
  | cons first calls ih =>
    obtain ⟨hid, hlayers, hlogging⟩ := ih (c.call first)
    rw [List.foldl_cons, hid, hlayers, hlogging]
    cases first with
    | lru capacity => exact ⟨rfl, List.append_assoc c.layers [_] _, rfl⟩
    | weak pinCount => exact ⟨rfl, List.append_assoc c.layers [_] _, rfl⟩
    | logging enabled =>
      refine ⟨rfl, rfl, ?_⟩
      change _ = (enabled :: calls.filterMap Call.logging?).getLast?.getD c.logging
      rw [List.getLast?_cons, Option.getD_some]
      rfl

theorem stacked_eq {c : Config} {below above : List Layer} {pinCount : UInt64}
    (h : c.layers = below ++ .weak pinCount :: above) : c.stacked = below.map Layer.made ++
      .weak pinCount.toNat :: (above.map Layer.made ++ if c.logging then [.logging] else []) := by
  rw [stacked, h, List.map_append, List.append_assoc]
  rfl

section
variable {σ K : Type} [BEq K] [Hashable K]

theorem surround_eq (s : Stack σ K) (layers : List Layer) :
    surround s layers = s.withLayers (layers.map Layer.made) := by
  induction layers generalizing s with
  | nil => rfl
  | cons layer layers ih =>
    cases layer with
    | lru capacity => exact ih (s.withLru capacity.toNat)
    | weak pinCount => exact ih s

theorem logged_surround_eq (c : Config) (s : Stack σ K) (layers : List Layer) :
    c.logged (surround s layers) =
      s.withLayers (layers.map Layer.made ++ if c.logging then [.logging] else []) := by
  rw [Stack.withLayers_append, ← surround_eq, logged]
  split <;> rfl

end

theorem weak_not_mem_made {layers : List Layer} (h : layers.countP Layer.isWeak = 0) (n : Nat) :
    .weak n ∉ layers.map Layer.made := by
  intro hm
  obtain ⟨layer, hlayer, hmade⟩ := List.mem_map.mp hm
  cases layer with
  | lru capacity => cases hmade
  | weak pinCount => exact List.countP_eq_zero.mp h _ hlayer rfl

theorem weak_not_mem_around {layers : List Layer} (h : layers.countP Layer.isWeak = 0) (logging : Bool)
    (n : Nat) : .weak n ∉ layers.map Layer.made ++ if logging then [.logging] else [] := by
  rw [List.mem_append, not_or]
  refine ⟨weak_not_mem_made h n, ?_⟩
  cases logging <;> simp

variable {K V : Type} [BEq K] [Hashable K] [BEq V] [Hashable V]

/-- With one weak layer at most, nothing is lost by the split. -/
theorem chain_eq {c : Config} (h : c.layers.countP Layer.isWeak ≤ 1) :
    (c.chain : Chain K V) = .ofLayers c.id c.stacked ∧
      (Chain.ofLayers c.id c.stacked : Chain K V).layers = c.stacked := by
  rcases splitAtWeak_cases c.layers with ⟨hsplit, hnone⟩ | ⟨below, pinCount, above, hsplit, hlayers, hbelow⟩
  · have haround := weak_not_mem_around hnone c.logging
    refine ⟨?_, Chain.layers_ofLayers_strong c.id haround⟩
    rw [chain, hsplit, stacked, Chain.ofLayers_strong c.id haround]
    exact congrArg Chain.strong (c.logged_surround_eq _ c.layers)
  · have habove : above.countP Layer.isWeak = 0 := by
      rw [hlayers, List.countP_append, List.countP_cons_of_pos rfl] at h
      omega
    have hbeneath := weak_not_mem_made hbelow
    rw [stacked_eq hlayers]
    refine ⟨?_, Chain.layers_ofLayers_weak c.id _ hbeneath (weak_not_mem_around habove c.logging)⟩
    rw [chain, hsplit, Chain.ofLayers_weak _ _ _ hbeneath]
    dsimp only
    rw [logged_surround_eq, surround_eq]

/-- The tier of a stacked chain is the weak layer that was asked for, over the layers listed before it. -/
theorem tier?_ofLayers_stacked {c : Config} {below above : List Layer} {pinCount : UInt64}
    (hlayers : c.layers = below ++ .weak pinCount :: above) (h : c.layers.countP Layer.isWeak ≤ 1) :
    ∃ t, (.ofLayers c.id c.stacked : Chain K V).tier? = some t ∧ t.pinCount = pinCount.toNat ∧
      t.under.layers = below.map Layer.made := by
  have hbelow : below.countP Layer.isWeak = 0 := by
    rw [hlayers, List.countP_append, List.countP_cons_of_pos rfl] at h
    omega
  have hbeneath := weak_not_mem_made hbelow
  rw [stacked_eq hlayers, Chain.tier?_ofLayers_weak _ _ _ hbeneath]
  exact ⟨_, rfl, rfl, Stack.layers_withLayers _ hbeneath⟩

theorem hasWeak_iff {c : Config} : c.hasWeak = true ↔ ∃ pinCount, .weak pinCount ∈ c.layers := by
  rw [hasWeak]
  rcases splitAtWeak_cases c.layers with ⟨hsplit, hnone⟩ | ⟨below, pinCount, above, hsplit, hlayers, -⟩
  · rw [hsplit]
    exact ⟨nofun, fun ⟨_, hm⟩ => (List.countP_eq_zero.mp hnone _ hm rfl).elim⟩
  · rw [hsplit, hlayers]
    exact ⟨fun _ => ⟨pinCount, List.mem_append_right _ List.mem_cons_self⟩, fun _ => rfl⟩

/-- A queue is exposed if a weak layer is listed, and only then. -/
theorem queue?_isSome {c : Config} :
    (.ofLayers c.id c.stacked : Chain K V).queue?.isSome = c.hasWeak := by
  rw [hasWeak]
  rcases splitAtWeak_cases c.layers with ⟨hsplit, hnone⟩ | ⟨below, pinCount, above, hsplit, hlayers, hbelow⟩
  · rw [hsplit, stacked, Chain.ofLayers_strong _ (weak_not_mem_around hnone c.logging)]
    rfl
  · rw [hsplit, stacked_eq hlayers, Chain.ofLayers_weak _ _ _ (weak_not_mem_made hbelow)]
    rfl

/-- The calls of a builder that starts from any configuration list their layers in order. Building what they
ask for fails just when it is not valid, with the rule that is broken. If it is valid, building it gives
the very chain in which the layers are stacked one by one, so a program cannot find any difference. That
chain has all the layers in their order, and the queue that it exposes is the one of the weak layer. -/
theorem build_stacks_layers (base : Config) (calls : List Call) :
    let c := calls.foldl call base
    let chain : Chain K V := .ofLayers c.id c.stacked
    (c.id = base.id ∧ c.layers = base.layers ++ calls.filterMap Call.layer? ∧
      c.logging = (calls.filterMap Call.logging?).getLast?.getD base.logging) ∧
    (∀ violation, (c.build : Except Violation (Chain K V × List Event)) = .error violation ↔
      c.validate = .error violation) ∧
    (c.validate = .ok () →
      c.build = .ok (chain, [.built c.layers.length c.logging chain.queue?.isSome]) ∧
      chain.layers = c.stacked ∧
      (chain.queue?.isSome = true ↔ ∃ pinCount, .weak pinCount ∈ c.layers) ∧
      ∀ below pinCount above, c.layers = below ++ .weak pinCount :: above →
        ∃ t, chain.tier? = some t ∧ t.pinCount = pinCount.toNat ∧ t.under.layers = below.map Layer.made ∧
          chain.queue? = some t.queue ∧
          ∀ (α : Type) (f : Queue K V → α × Queue K V), ∃ chain',
            chain.onQueue? f = some ((f t.queue).1, chain') ∧
              chain'.tier? = some { t with queue := (f t.queue).2 }) := by
  intro c chain
  refine ⟨base.foldl_call calls, fun violation => ?_, fun hvalid => ?_⟩
  · rw [build]
    cases c.validate with
    | error broken => rw [Except.error.injEq, Except.error.injEq]
    | ok valid => exact ⟨nofun, nofun⟩
  · have hweak := (validate_eq_ok_iff.mp hvalid).2.2
    obtain ⟨hchain, hlisted⟩ := chain_eq (K := K) (V := V) hweak
    have hqueue : chain.queue?.isSome = c.hasWeak := queue?_isSome
    refine ⟨?_, hlisted, ?_, fun below pinCount above hlayers => ?_⟩
    · rw [build, hvalid, hqueue, hchain]
    · rw [hqueue, hasWeak_iff]
    · obtain ⟨t, ht, hpinCount, hbeneath⟩ := tier?_ofLayers_stacked (K := K) (V := V) hlayers hweak
      refine ⟨t, ht, hpinCount, hbeneath, congrArg (Option.map Tier.queue) ht, fun α f => ?_⟩
      exact Chain.onTier?_of_tier ht fun t => ((f t.queue).1, { t with queue := (f t.queue).2 })

/-- The recency layers end up on either side of the weak one, and logging goes around all of them although
it was asked for earlier. -/
theorem build_stacks_layers_of_calls :
    let c := [.lru 2, .weak 1, .logging true, .lru 3].foldl call (bare "rows")
    c.validate = .ok () ∧ (c.build : Except Violation (Chain Nat Nat × List Event)) =
      .ok (.ofLayers "rows" [.lru 2, .weak 1, .lru 3, .logging], [.built 3 true true]) := by
  intro c
  have hvalid : c.validate = .ok () := validate_eq_ok_iff.mpr ⟨by decide, by decide, by decide⟩
  exact ⟨hvalid, ((build_stacks_layers (bare "rows") [.lru 2, .weak 1, .logging true, .lru 3]).2.2 hvalid).1⟩

end ResultCache.Config
