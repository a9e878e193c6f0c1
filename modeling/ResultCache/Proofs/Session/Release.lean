import ResultCache.Proofs.Chain.Removal
import ResultCache.Proofs.Session.Lifetime

/-! What a pass of the queue releases. It reports just the keys of the values that it alone owned under one key, they
are gone for good, nothing else is touched, and a second pass finds nothing more. -/
namespace ResultCache.Session
open Tier (Contents)
variable {K : Type} [BEq K] [Hashable K]

private theorem next_collect {s : Session K} {t : Tier K (Object String)} (ht : s.chain.tier? = some t)
    (change : Tier K (Object String) → Tier K (Object String)) (hchange : change t = (t.collect s.inUse).2) :
    s.next (.queue .collect) = { s with chain := s.chain.mapTier change } ∧
      (s.step (.queue .collect)).answer = .count (t.collect s.inUse).1.length := by
  have hchain : s.chain.mapTier change = s.chain.mapTier fun t => (t.collect s.inUse).2 :=
    Chain.mapTier_congr ht hchange
  rw [hchain]
  obtain ⟨chain, host, unwrapped⟩ := s
  cases chain with
  | strong stack => cases ht
  | weak stack =>
    cases ht
    refine ⟨?_, rfl⟩
    exact congrArg (fun stack => (⟨.weak stack, host, unwrapped⟩ : Session K)) (Stack.mapInner_congr rfl)

variable [EquivBEq K] [LawfulHashable K]

private theorem idle_pass {s : Session K} {t : Tier K (Object String)} (ht : s.chain.tier? = some t)
    (hrest : ∀ k v, t.queue.registered.get? k = some v → t.contents.isFree s.inUse v = false) :
    (s.step (.queue .collect)).answer = .count 0 ∧
      ∃ registered, registered.entries.Equiv t.queue.registered.entries ∧
        s.next (.queue .collect) = { s with
          chain := s.chain.mapTier fun t => { t with queue := { t.queue with registered } } } := by
  -- the pass still filters the registrations, so they are the same only up to their order
  obtain ⟨hnone, hequiv⟩ := Contents.collect_settled (c := t.contents) hrest
  have hkeys : (t.collect s.inUse).1 = [] := hnone
  have hpending : (t.collect s.inUse).2.queue.pending = t.queue.pending := by
    change t.queue.pending ++ (t.collect s.inUse).1 = t.queue.pending
    rw [hkeys, List.append_nil]
  have hsame : { t with queue := { t.queue with registered := (t.collect s.inUse).2.queue.registered } } =
      (t.collect s.inUse).2 :=
    congrArg (fun pending => { t with queue := ⟨(t.collect s.inUse).2.queue.registered, pending⟩ }) hpending.symm
  obtain ⟨hnext, hanswer⟩ := next_collect ht
    (fun t₁ => { t₁ with queue := { t₁.queue with registered := (t.collect s.inUse).2.queue.registered } }) hsame
  refine ⟨?_, _, hequiv, hnext⟩
  rw [hanswer, hkeys]
  rfl

/-- Wherever a run over a chain with a weak layer gets to, a pass of the queue reports the keys whose value has no
owner but this registration, and each of them once. The values it releases are never found again, and nothing is
found under their keys until they are put. Apart from the queue all stays as it was, so lookups of other values find
the same; and a second pass reports nothing and keeps the registrations. -/
theorem collect_is_final (name : String) (layers : List Layer) (ops : List (Operation K)) {pinCount : Nat}
    (hweak : .weak pinCount ∈ layers) :
    let s : Session K := ops.foldl next (start name layers)
    let s' := s.next (.queue .collect)
    ∃ t t' keys, s.chain.tier? = some t ∧ s'.chain.tier? = some t' ∧
      (s.step (.queue .collect)).answer = .count keys.length ∧
      t'.queue.pending = t.queue.pending ++ keys ∧ t'.queue.pending.Pairwise (fun j k => (j == k) = false) ∧
      (∀ k, keys.contains k = true ↔
        ∃ o, t.queue.registered.get? k = some o ∧ ¬ t.contents.OwnedBesides s.inUse k o) ∧
      (∀ k o, keys.contains k = true → t.queue.registered.get? k = some o →
        s'.Forgotten o ∧ s'.AbsentUntilPut k) ∧
      s' = { s with chain := s.chain.mapTier fun t => { t with queue := t'.queue } } ∧
      t'.pins = t.pins ∧ s'.chain.recencies = s.chain.recencies ∧
      (∀ k, (∀ o j, s.chain.stored k = some o → keys.contains j = true → t.queue.registered.get? j ≠ some o) →
        (s'.chain.get s'.inUse k).answer = (s.chain.get s.inUse k).answer) ∧
      (s'.step (.queue .collect)).answer = .count 0 ∧
      ∃ registered, registered.entries.Equiv t'.queue.registered.entries ∧
        s'.next (.queue .collect) = { s' with
          chain := s'.chain.mapTier fun t => { t with queue := { t.queue with registered } } } := by
  intro s s'
  obtain ⟨t, ht, hconsistent⟩ := consistent_run name ops hweak
  have ht' : s'.chain.tier? = some (t.collect s.inUse).2 := tier?_queue ht .collect
  have hworld : s'.inUse = s.inUse := inUse_collect s
  have hcontains : ∀ k, (t.collect s.inUse).1.contains k = true ↔
      ∃ o, t.queue.registered.get? k = some o ∧ t.contents.isFree s.inUse o = true := fun k => by
    rw [← Option.any_eq_true]
    exact Bool.eq_iff_iff.mp (Contents.contains_released (c := t.contents))
  have hnext := next_collect ht (fun t₁ => { t₁ with queue := (t.collect s.inUse).2.queue }) rfl
  have hrest : ∀ k v, (t.contents.collect s.inUse).registered.get? k = some v →
      (t.contents.collect s.inUse).isFree s.inUse v = false := fun k v => Contents.isFree_collect
  refine ⟨t, (t.collect s.inUse).2, (t.collect s.inUse).1, ht, ht', hnext.2, rfl,
    hconsistent.coherent.collect.distinct, fun k => ?_, fun k o hk ho => ?_, hnext.1, rfl, ?_, fun k hkept => ?_,
    idle_pass ht' ?_⟩
  · rw [hcontains]
    refine exists_congr fun o => and_congr_right fun ho => ?_
    rw [← Contents.isFree_eq_false_iff (c := t.contents) ho, Bool.not_eq_false]
  · obtain ⟨freed, hfreed, hfree⟩ := (hcontains k).mp hk
    cases ho.symm.trans hfreed
    have hmade := Nat.lt_of_lt_of_le (hconsistent.registered k o ho) (s.made_le_next (.queue .collect))
    have hlost : Lost o s' (t.collect s.inUse).2 := by
      refine ⟨hmade, ?_⟩
      rw [hworld]
      exact Contents.isAlive_collect (c := t.contents) hfree
    refine ⟨hlost.forgotten ht', .of_stored fun o' hs => ?_⟩
    rw [Chain.stored_of_tier ht'] at hs
    obtain ⟨handle, he, rfl⟩ := Contents.stored_eq_some.mp hs
    rw [hconsistent.coherent.agree k handle o he ho]
    exact hlost.forgotten ht'
  · change (s.next (.queue .collect)).chain.recencies = s.chain.recencies
    rw [hnext.1]
    exact Chain.recencies_mapTier s.chain fun _ => rfl
  · rw [Chain.get_of_tier ht', Chain.get_of_tier ht, hworld]
    refine hconsistent.coherent.find_collect fun o j hs hj => Bool.eq_false_iff.mpr fun hfree => ?_
    rw [← Chain.stored_of_tier ht] at hs
    exact hkept o j hs ((hcontains j).mpr ⟨o, hj, hfree⟩) hj
  · rw [hworld]
    exact hrest

/-- Of two objects the one in a slot is spared, and the other is gone together with its key. -/
theorem collect_is_final_of_two :
    let layers : List Layer := [.lru 2, .weak 1, .logging]
    let s : Session Nat := [.slot (.hold "a" "x"), .put 1 (.slot "a"), .put 2 (.fresh "y")].foldl next
      (start "rows" layers)
    let s' := s.next (.queue .collect)
    .weak 1 ∈ layers ∧ ∃ keys : List Nat, (s.step (.queue .collect)).answer = .count keys.length ∧
      keys.contains 1 = false ∧ keys.contains 2 = true ∧ s'.Forgotten ⟨1, "y"⟩ ∧ s'.AbsentUntilPut 2 ∧
      (s'.step (.queue .collect)).answer = .count 0 := by
  intro layers s s'
  have hweak : .weak 1 ∈ layers := by decide
  obtain ⟨t, t', keys, ht, -, hanswer, -, -, hkeys, hfinal, -, -, -, -, hagain, -⟩ :=
    collect_is_final (K := Nat) "rows" layers
      [.slot (.hold "a" "x"), .put 1 (.slot "a"), .put 2 (.fresh "y")] hweak
  have hreg : t.queue.registered = (Registry.empty.insert 1 ⟨0, "x"⟩).insert 2 ⟨1, "y"⟩ :=
    congrArg (fun t => t.queue.registered) (Option.some.inj ht).symm
  have hpins : t.pins = .empty := congrArg Tier.pins (Option.some.inj ht).symm
  have hget : ∀ k, t.queue.registered.get? k = if 2 == k then some ⟨1, "y"⟩ else
      if 1 == k then some ⟨0, "x"⟩ else none := fun k => by simp [hreg]
  have hfirst : keys.contains 1 = false := by
    rw [Bool.eq_false_iff]
    intro hk
    obtain ⟨o, ho, hunowned⟩ := (hkeys 1).mp hk
    cases (hget 1).symm.trans ho
    exact hunowned (.inl rfl)
  have hsecond : keys.contains 2 = true := by
    refine (hkeys 2).mpr ⟨⟨1, "y"⟩, hget 2, ?_⟩
    rintro (hu | hp | ⟨j, hj, hv⟩)
    · cases hu
    · change t.pins.contains _ = true at hp
      simp [hpins] at hp
    · change t.queue.registered.get? j = _ at hv
      rw [hget j, hj, if_neg Bool.false_ne_true] at hv
      split at hv <;> cases hv
  obtain ⟨hforgotten, habsent⟩ := hfinal 2 ⟨1, "y"⟩ hsecond (hget 2)
  exact ⟨hweak, keys, hanswer, hfirst, hsecond, hforgotten, habsent, hagain⟩

end ResultCache.Session
