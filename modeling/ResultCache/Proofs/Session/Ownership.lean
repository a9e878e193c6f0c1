import ResultCache.Proofs.Chain.Retention
import ResultCache.Proofs.Recency.Retention
import ResultCache.Proofs.Session.Coverage
import ResultCache.Proofs.Session.Registration
import ResultCache.Proofs.Tier.Ownership

/-! How many values a chain keeps alive. Recency layers around the weak one bound the registrations and
thereby the values owned. Those beneath it take handles away and leave the values to the queue. -/
namespace ResultCache.Session
variable {K : Type} [BEq K] [Hashable K] [EquivBEq K] [LawfulHashable K]

omit [EquivBEq K] [LawfulHashable K] in
private theorem pinning_next {pinCount : Nat} {s : Session K} {t t' : Tier K (Object String)}
    {op : Operation K} (h : t.Pinning pinCount) (heffect : s.TierEffect op t t') : t'.Pinning pinCount := by
  cases heffect with
  | request e dropped exchanged tier =>
    rw [tier]
    exact Cache.removeEach_preserves (fun _ k hp => hp.run s.inUse (.remove k))
      (h.run s.inUse e.request) dropped
  | queue action acted tier =>
    rw [tier]
    cases action <;> exact ⟨h.pinCount_eq, h.size_le⟩
  | none exchanged idle tier =>
    rw [tier]
    exact h

private theorem registrations_covered (name : String) (layers : List Layer) (ops : List (Operation K)) :
    (ops.foldl next (start name layers)).chain.TierCovers fun t k =>
      ∃ o, t.contents.registered.get? k = some o := by
  refine chain_invariant (fun c inUse request h => h.run (Tier.keyed_registered inUse) request)
    (fun c inUse action h => h.mapTier fun t k hk => ?_) (.ofLayers name layers fun t ht k => ?_) ops
  · exact hk.imp fun o ho => registered_act ho
  · simp [ht, Tier.Contents.empty]

omit [EquivBEq K] [LawfulHashable K] in
private theorem tierCapacities_run (name : String) {beneath : List Layer} (pinCount : Nat)
    (around : List Layer) (h : ∀ n, .weak n ∉ beneath) (ops : List (Operation K)) :
    (ops.foldl next (start name (beneath ++ .weak pinCount :: around))).chain.tierCapacities =
      (around.filterMap Layer.capacity?).reverse := by
  refine chain_invariant (P := fun c => c.tierCapacities = _) (fun c inUse request h => ?_)
    (fun c inUse action h => ?_) (Chain.tierCapacities_ofLayers name pinCount around h) ops
  · rw [Chain.tierCapacities_run, h]
  · rw [Chain.tierCapacities_mapTier, h]

/-- Wherever a run over a chain with a weak layer gets to, the values that are registered or pinned are at
most as many as any recency layer around the weak one has places for, and the pins. The values that are
pinned or have their handle stored are so few by each recency layer, also by those beneath. -/
theorem owned_values_bounded (name : String) {beneath : List Layer} (pinCount : Nat) (around : List Layer)
    (ops : List (Operation K)) (hbeneath : ∀ n, .weak n ∉ beneath) :
    let s : Session K := ops.foldl next (start name (beneath ++ .weak pinCount :: around))
    ∃ t, s.chain.tier? = some t ∧
      (∀ capacity, .lru capacity ∈ around → ∀ objects : List (Object String), objects.Nodup →
        (∀ o ∈ objects, 0 < t.owners o) → objects.length ≤ capacity + pinCount) ∧
      ∀ capacity, .lru capacity ∈ beneath ++ around → ∀ objects : List (Object String), objects.Nodup →
        (∀ o ∈ objects, t.pins.contains o = true ∨ ∃ k, t.contents.stored k = some o) →
          objects.length ≤ capacity + pinCount := by
  intro s
  have hstart : (start name (beneath ++ .weak pinCount :: around) : Session K).chain.tier? =
      some { pinCount, under := (Stack.core { name }).withLayers beneath } := by
    rw [start, Chain.ofLayers_weak name pinCount around hbeneath, Chain.tier?, Stack.inner_withLayers]
    rfl
  obtain ⟨t, ht, hpinning⟩ := tier_invariant (P := fun _ t => t.Pinning pinCount) ops
    (fun _ _ _ _ _ _ _ heffect h => pinning_next h heffect) hstart ⟨rfl, Nat.zero_le _⟩
  refine ⟨t, ht, fun capacity hc objects hd howned => ?_, fun capacity hc objects hd hstored => ?_⟩
  -- the layers around the tier see every put and removal, so they track the registered keys
  · have hcovers : s.chain.TierCovers _ := registrations_covered name _ ops
    have hcapacity : capacity ∈ s.chain.tierCapacities := by
      rw [tierCapacities_run name pinCount around hbeneath, List.mem_reverse, List.mem_filterMap]
      exact ⟨.lru capacity, hc, rfl⟩
    refine hpinning.length_le (fun hk => ?_) (fun hapart hkeys => ?_) hd
      fun o ho => Tier.owners_pos_iff.mp (howned o ho)
    · exact Std.HashMap.getElem?_congr hk
    · exact hcovers.length_le ht hcapacity hapart hkeys
  -- those beneath it see handles only
  · have hcovers : s.chain.Covers := covers_run name _ ops
    have hcapacity : capacity ∈ s.chain.capacities := by
      rw [capacities_run, List.mem_reverse, List.mem_filterMap]
      exact ⟨.lru capacity, by simpa using hc, rfl⟩
    refine hpinning.length_le (fun hk => ?_) (fun hapart hkeys => ?_) hd hstored
    · exact congrArg (Option.map Handle.referent) (Std.HashMap.getElem?_congr hk)
    · exact hcovers.length_le hcapacity hapart fun k hk => by
        rw [Chain.stored_of_tier ht]
        exact hkeys k hk

/-- The layer around the weak one makes room for the second value, and the first is let go of. -/
theorem owned_values_bounded_of_evicted :
    let s : Session Nat := [.put 1 (.fresh "x"), .put 2 (.fresh "y")].foldl next
      (start "rows" ([.logging] ++ .weak 0 :: [.lru 1]))
    (∀ n, .weak n ∉ [Layer.logging]) ∧ ∃ t, s.chain.tier? = some t ∧
      0 < t.owners ⟨1, "y"⟩ ∧ ¬ 0 < t.owners ⟨0, "x"⟩ := by
  intro s
  have hbeneath : ∀ n, .weak n ∉ [Layer.logging] := by simp
  obtain ⟨t, ht, howned, -⟩ := owned_values_bounded "rows" 0 [.lru 1]
    [.put 1 (.fresh "x"), .put 2 (.fresh "y")] hbeneath (K := Nat)
  have hready : (Chain.ofLayers "rows" ([.logging] ++ .weak 0 :: [.lru 1]) :
      Chain Nat (Object String)).EachRecency (Recency.Ready []) := by
    refine .ofLayers "rows" fun capacity hc => Recency.Ready.empty ?_
    have hcapacity : capacity = 1 := by simpa using hc
    rw [hcapacity]
    exact Nat.one_pos
  have hnext := hready.put (fun _ => false) 1 ⟨0, "x"⟩ fun _ _ hr => hr.track 1
  have hretained : s.chain.Retains 2 ⟨1, "y"⟩ := by
    refine .of_put BEq.rfl (fun _ => false) (hnext.evictedBy ?_)
    rintro k v ⟨⟩ capacity recency hr
    exact (hr.guards 2).2
  have hholds : t.contents.Holds 2 ⟨1, "y"⟩ := by
    rw [← Option.some.inj ht]
    exact hretained
  have hlast : 0 < t.owners ⟨1, "y"⟩ := Tier.owners_pos_iff.mpr (.inr ⟨2, hholds.registered⟩)
  refine ⟨hbeneath, t, ht, hlast, fun hfirst => ?_⟩
  have hboth := howned 1 List.mem_cons_self [⟨0, "x"⟩, ⟨1, "y"⟩] (by decide) (by simp [hfirst, hlast])
  exact absurd hboth (by decide)

/-- A layer beneath the weak one evicts a handle, and the queue goes on to own its value. -/
theorem owned_values_exceed_inner_layer :
    let s : Session Nat :=
      [.put 1 (.fresh "x"), .put 2 (.fresh "y")].foldl next (start "rows" [.lru 1, .weak 0])
    ∃ t, s.chain.tier? = some t ∧ ∃ objects : List (Object String), objects.Nodup ∧
      (∀ o ∈ objects, 0 < t.owners o) ∧ 1 + 0 < objects.length := by
  intro s
  obtain ⟨t, ht⟩ : ∃ t, s.chain.tier? = some t := ⟨_, rfl⟩
  have hreg : t.contents.registered = (Registry.empty.insert 1 ⟨0, "x"⟩).insert 2 ⟨1, "y"⟩ :=
    congrArg (fun t => t.contents.registered) (Option.some.inj ht).symm
  have hfirst : 0 < t.owners ⟨0, "x"⟩ :=
    Tier.owners_pos_iff.mpr (.inr ⟨1, by simp [hreg]⟩)
  have hlast : 0 < t.owners ⟨1, "y"⟩ :=
    Tier.owners_pos_iff.mpr (.inr ⟨2, by simp [hreg]⟩)
  exact ⟨t, ht, [⟨0, "x"⟩, ⟨1, "y"⟩], by decide, by simp [hfirst, hlast], by decide⟩

end ResultCache.Session
