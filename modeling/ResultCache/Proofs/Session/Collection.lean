import ResultCache.Proofs.Session.Objects
import ResultCache.Proofs.Tier.Collection

/-! What a program's pass of the queue leaves registered. The pass looks at the number of owners of a
value, and two registrations of it under two keys are two owners. -/
namespace ResultCache.Session
variable {K : Type} [BEq K] [Hashable K] [EquivBEq K] [LawfulHashable K]

/-- Whatever a program has done to a chain with a weak layer, a pass of the queue leaves those values
registered under a key that are in use, pinned, or registered under another key, and these owners are
still there after the pass. So it leaves nothing that the queue alone owns just if every value with two
keys is in use or pinned. -/
theorem collect_keeps_owned (name : String) (layers : List Layer) (ops : List (Operation K))
    {pinCount : Nat} (hweak : .weak pinCount ∈ layers) :
    let s : Session K := ops.foldl next (start name layers)
    let s' := s.next (.queue .collect)
    ∃ t t', s.chain.tier? = some t ∧ s'.chain.tier? = some t' ∧
      (∀ k v, t'.queue.registered.get? k = some v ↔
        t.queue.registered.get? k = some v ∧ t.contents.OwnedBesides s.inUse k v) ∧
      (∀ k v, t'.queue.registered.get? k = some v → t'.contents.OwnedBesides s'.inUse k v) ∧
      ((∀ k v, t'.queue.registered.get? k = some v → s'.inUse v = true ∨ t'.pins.contains v = true) ↔
        ∀ j k v, (j == k) = false → t.queue.registered.get? j = some v →
          t.queue.registered.get? k = some v → s.inUse v = true ∨ t.pins.contains v = true) := by
  intro s s'
  obtain ⟨t₀, ht₀⟩ := Chain.tier?_ofLayers (K := K) (V := Object String) name hweak
  obtain ⟨t, ht, -⟩ := tier_invariant (P := fun _ _ => True) (s := start name layers) ops
    (fun _ _ _ _ _ _ _ _ _ => trivial) ht₀ trivial
  have ht' := tier?_queue ht .collect
  have hworld := inUse_collect s
  refine ⟨t, (t.collect s.inUse).2, ht, ht', ?_, ?_, ?_⟩
  · exact fun k v => Tier.Contents.registered_collect_iff (c := t.contents)
  · intro k v hv
    rw [hworld]
    obtain ⟨hk, ho⟩ := Tier.Contents.registered_collect_iff (c := t.contents) |>.mp hv
    exact Tier.Contents.ownedBesides_collect hk ho
  · rw [hworld]
    exact Tier.Contents.collect_releases_iff (c := t.contents)

/-- Of two objects the one in a slot stays registered, and the other is released. -/
theorem collect_keeps_held_of_two :
    let s : Session Nat := [.slot (.hold "a" "x"), .put 1 (.slot "a"), .put 2 (.fresh "y")].foldl next
      (start "rows" [.weak 1])
    Layer.weak 1 ∈ [Layer.weak 1] ∧ ∃ t', (s.next (.queue .collect)).chain.tier? = some t' ∧
      t'.queue.registered.get? 1 = some ⟨0, "x"⟩ ∧ t'.queue.registered.get? 2 = none := by
  intro s
  have hweak : Layer.weak 1 ∈ [Layer.weak 1] := List.mem_singleton.mpr rfl
  obtain ⟨t, t', ht, ht', hiff, -, -⟩ := collect_keeps_owned (K := Nat) "rows" [.weak 1]
    [.slot (.hold "a" "x"), .put 1 (.slot "a"), .put 2 (.fresh "y")] hweak
  have hreg : t.queue.registered = (Registry.empty.insert 1 ⟨0, "x"⟩).insert 2 ⟨1, "y"⟩ :=
    congrArg (fun t => t.queue.registered) (Option.some.inj ht).symm
  have hpins : t.pins = .empty := congrArg Tier.pins (Option.some.inj ht).symm
  have hget : ∀ k, t.queue.registered.get? k = if 2 == k then some ⟨1, "y"⟩ else
      if 1 == k then some ⟨0, "x"⟩ else none := fun k => by simp [hreg]
  refine ⟨hweak, t', ht', (hiff 1 ⟨0, "x"⟩).mpr ⟨hget 1, .inl rfl⟩, ?_⟩
  rw [Option.eq_none_iff_forall_ne_some]
  intro v hv
  obtain ⟨hk, ho⟩ := (hiff 2 v).mp hv
  cases (hget 2).symm.trans hk
  rcases ho with hu | hp | ⟨j, hj, hv⟩
  · cases hu
  · change t.pins.contains _ = true at hp
    simp [hpins] at hp
  · change t.queue.registered.get? j = _ at hv
    rw [hget j, hj] at hv
    by_cases h1 : (1 == j) = true
    · rw [if_neg Bool.false_ne_true, if_pos h1] at hv
      cases hv
    · rw [if_neg Bool.false_ne_true, if_neg h1] at hv
      cases hv

/-- An object that the queue alone owns, under two keys, stays registered under both. -/
theorem collect_keeps_unowned_of_two_keys :
    let s : Session Nat := [.slot (.hold "a" "x"), .put 1 (.slot "a"), .put 2 (.slot "a"),
      .slot (.release "a")].foldl next (start "rows" [.weak 0])
    let s' := s.next (.queue .collect)
    ∃ t', s'.chain.tier? = some t' ∧ t'.queue.registered.get? 1 = some ⟨0, "x"⟩ ∧
      t'.queue.registered.get? 2 = some ⟨0, "x"⟩ ∧ s'.inUse ⟨0, "x"⟩ = false ∧
      t'.pins.contains ⟨0, "x"⟩ = false := by
  intro s s'
  obtain ⟨t, ht⟩ : ∃ t, s.chain.tier? = some t := ⟨_, rfl⟩
  have hreg : t.contents.registered = (Registry.empty.insert 1 ⟨0, "x"⟩).insert 2 ⟨0, "x"⟩ :=
    congrArg (fun t => t.queue.registered) (Option.some.inj ht).symm
  have hpins : t.pins = .empty := congrArg Tier.pins (Option.some.inj ht).symm
  have h1 : t.contents.registered.get? 1 = some ⟨0, "x"⟩ := by simp [hreg]
  have h2 : t.contents.registered.get? 2 = some ⟨0, "x"⟩ := by simp [hreg]
  have hunused : s.inUse ⟨0, "x"⟩ = false := rfl
  clear_value s
  refine ⟨(t.collect s.inUse).2, tier?_queue ht .collect, ?_, ?_, ?_, ?_⟩
  · exact (Tier.Contents.registered_collect_iff (c := t.contents)).mpr ⟨h1, .inr (.inr ⟨2, rfl, h2⟩)⟩
  · exact (Tier.Contents.registered_collect_iff (c := t.contents)).mpr ⟨h2, .inr (.inr ⟨1, rfl, h1⟩)⟩
  · rw [inUse_collect]
    exact hunused
  · change t.pins.contains _ = false
    simp [hpins]

end ResultCache.Session
