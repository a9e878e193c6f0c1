import ResultCache.Proofs.Chain.Coverage
import ResultCache.Proofs.Session.Step

/-! Recency layers hold on to all stored keys, whatever calls a program makes and whatever it does to the
queue. Keys leave the storage without the layers being told, but none is stored that a layer forgot. -/
namespace ResultCache.Session
variable {K : Type} [BEq K] [Hashable K] [EquivBEq K] [LawfulHashable K]

theorem covers_run (name : String) (layers : List Layer) (ops : List (Operation K)) :
    (ops.foldl next (start name layers)).chain.Covers :=
  chain_invariant (fun _ inUse request h => h.run inUse request)
    (fun _ inUse action h => h.mapTier fun t => t.under_act inUse action) (.ofLayers name layers) ops

omit [EquivBEq K] [LawfulHashable K] in
/-- A run leaves the recency layers with the capacities they were made with. -/
theorem capacities_run (name : String) (layers : List Layer) (ops : List (Operation K)) :
    (ops.foldl next (start name layers)).chain.capacities =
      (layers.filterMap Layer.capacity?).reverse := by
  refine chain_invariant (P := fun c => c.capacities = _) (fun c inUse request h => ?_)
    (fun c inUse action h => ?_) (Chain.capacities_ofLayers name layers) ops
  · rw [Chain.capacities_run, h]
  · rw [Chain.capacities_mapTier c fun t => t.under_act inUse action, h]

/-- Wherever a run gets to, every recency layer has its capacity, tracks no more keys than that, and
tracks all stored keys; so the size of the chain is at most the capacity of any of its layers. -/
theorem size_bounded_by_layers (name : String) (layers : List Layer) (ops : List (Operation K)) :
    let s : Session K := ops.foldl next (start name layers)
    s.chain.capacities = (layers.filterMap Layer.capacity?).reverse ∧
      (s.chain.EachRecency fun capacity recency =>
        recency.size ≤ capacity ∧ ∀ k o, s.chain.stored k = some o → recency.contains k = true) ∧
      ∀ capacity, .lru capacity ∈ layers → (s.chain.size s.inUse).answer ≤ capacity := by
  intro s
  have hcovers : s.chain.Covers := covers_run name layers ops
  have hcapacities : s.chain.capacities = _ := capacities_run name layers ops
  refine ⟨hcapacities, hcovers.each, fun capacity hc => hcovers.size_le ?_ s.inUse⟩
  rw [hcapacities, List.mem_reverse, List.mem_filterMap]
  exact ⟨.lru capacity, hc, rfl⟩

/-- The inner layer evicts a key that the outer one still tracks. -/
theorem size_bounded_by_inner_layer :
    let layers : List Layer := [.lru 1, .weak 1, .logging, .lru 2]
    let ops : List (Operation Nat) :=
      [.put 1 (.fresh "x"), .put 2 (.fresh "y"), .queue .collect, .get 1 none]
    let s := ops.foldl next (start "rows" layers)
    .lru 1 ∈ layers ∧ s.chain.capacities = [2, 1] ∧ (s.chain.size s.inUse).answer ≤ 1 := by
  intro layers ops s
  have hinner : .lru 1 ∈ layers := by decide
  obtain ⟨hcapacities, -, hsize⟩ := size_bounded_by_layers "rows" layers ops
  exact ⟨hinner, hcapacities, hsize 1 hinner⟩

end ResultCache.Session
