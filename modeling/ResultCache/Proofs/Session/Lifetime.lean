import ResultCache.Proofs.Session.Registration
import ResultCache.Proofs.Tier.Lifetime

/-! What a run cannot bring back: an object that has lost its last owner, and the entry of a key that is not put
again. -/
namespace ResultCache.Session
open Tier (Contents)
variable {K : Type} [BEq K] [Hashable K]

/-- The object was made, and nothing owns it any more. -/
structure Lost (o : Object String) (s : Session K) (t : Tier K (Object String)) : Prop where
  made : o.id < s.host.made
  unowned : t.contents.isAlive s.inUse o = false

/-- Whatever the program goes on to do, no slot gets the object, the chain does not own it, and no key leads
to it. -/
def Forgotten (s : Session K) (o : Object String) : Prop :=
  ∀ ops : List (Operation K), let later := ops.foldl next s
    later.inUse o = false ∧ later.chain.owners o = 0 ∧
      ∀ k, (later.chain.get later.inUse k).answer ≠ some o ∧ (later.chain.remove later.inUse k).answer ≠ some o

/-- Whatever the program goes on to do, nothing is found under the key until it is put. -/
def AbsentUntilPut (s : Session K) (k : K) : Prop :=
  ∀ ops : List (Operation K), (∀ e ∈ s.exchanges ops, e.puts k = false) → let later := ops.foldl next s
    ∀ j, (k == j) = true →
      (later.chain.get later.inUse j).answer = none ∧ (later.chain.remove later.inUse j).answer = none

variable [EquivBEq K] [LawfulHashable K] {s : Session K} {t t' : Tier K (Object String)} {op : Operation K}
variable {o : Object String}

private theorem alive_of_inUse (ht : s.chain.tier? = some t) (h : (s.next op).inUse o = true) :
    t.contents.isAlive s.inUse o = true ∨ o.id = s.host.made := by
  have hslot : s.inUse o = true → t.contents.isAlive s.inUse o = true := fun hu => Contents.isAlive_iff.mpr (.inl hu)
  have hidle : s.exchange? op = none → t.contents.isAlive s.inUse o = true ∨ o.id = s.host.made := by
    intro hnone
    obtain hold | ⟨hid, -⟩ | hfound := inUse_next h
    · exact .inl (hslot hold)
    · exact .inr hid
    · cases hfound with
      | stored e k exchanged stored => cases hnone.symm.trans exchanged
      | registered t₀ k tier registered =>
        cases ht.symm.trans tier
        exact .inl (Contents.isAlive_iff.mpr (.inr (.inr ⟨k, registered⟩)))
  cases op with
  | slot action => exact hidle rfl
  | queue action => exact hidle rfl
  | put key source =>
    rw [inUse_put] at h
    exact .inl (hslot h)
  | get key keep =>
    obtain hold | hfound := Host.inUse_of_keep h
    · exact .inl (hslot hold)
    · change (s.chain.get s.inUse key).answer = some o at hfound
      rw [Chain.get_of_tier ht] at hfound
      exact .inl (Contents.isAlive_of_find hfound)
  | remove key keep =>
    obtain hold | hfound := Host.inUse_of_keep h
    · exact .inl (hslot hold)
    · change (s.chain.remove s.inUse key).answer = some o at hfound
      rw [(Chain.remove_of_tier ht s.inUse key).1] at hfound
      exact .inl (Contents.isAlive_of_find hfound)
  | size => exact .inl (hslot h)
  | clear => exact .inl (hslot h)

/-- No operation brings an object to life but the one just made. -/
theorem alive_next (ht : s.chain.tier? = some t) (heffect : s.TierEffect op t t')
    (h : t'.contents.isAlive (s.next op).inUse o = true) :
    t.contents.isAlive s.inUse o = true ∨ o.id = s.host.made := by
  cases heffect with
  | request e dropped exchanged tier =>
    have hput : ∀ k, e.request = .put k o → t.contents.isAlive s.inUse o = true ∨ o.id = s.host.made := by
      intro k he
      cases e with
      | put key value =>
        cases he
        exact (put_next exchanged).imp (fun hu => Contents.isAlive_iff.mpr (.inl hu)) And.left
      | _ => cases he
    rw [tier] at h
    refine Tier.contents_removeEach (P := fun c => c.isAlive (s.next op).inUse o = true → _)
      (fun k _ c hc hafter => hc (Contents.isAlive_of_remove hafter)) (fun hafter => ?_) s.inUse h
    rw [Tier.run_contents] at hafter
    obtain hu | hbefore | ⟨k, he⟩ := Contents.isAlive_of_run hafter
    · exact alive_of_inUse ht hu
    · exact .inl hbefore
    · exact hput k he
  | queue action acted tier =>
    have hpins : t'.pins = t.pins := by
      rw [tier]
      cases action <;> rfl
    obtain hu | hp | ⟨k, hk⟩ := Contents.isAlive_iff.mp h
    · exact alive_of_inUse ht hu
    · change t'.pins.contains o = true at hp
      rw [hpins] at hp
      exact .inl (Contents.isAlive_iff.mpr (.inr (.inl hp)))
    · rw [tier] at hk
      exact .inl (Contents.isAlive_iff.mpr (.inr (.inr ⟨k, registered_act hk⟩)))
  | none exchanged idle tier =>
    rw [tier] at h
    obtain hu | howned := Contents.isAlive_iff.mp h
    · exact alive_of_inUse ht hu
    · exact .inl (Contents.isAlive_iff.mpr (.inr howned))

theorem Lost.next (h : Lost o s t) (ht : s.chain.tier? = some t) (heffect : s.TierEffect op t t') :
    Lost o (s.next op) t' := by
  have hmade := h.made
  refine ⟨Nat.lt_of_lt_of_le hmade (made_le_next s op), Bool.eq_false_iff.mpr fun halive => ?_⟩
  obtain hbefore | hid := alive_next ht heffect halive
  · rw [h.unowned] at hbefore
    cases hbefore
  · omega

/-- What is lost stays lost. -/
theorem Lost.forgotten (h : Lost o s t) (ht : s.chain.tier? = some t) : s.Forgotten o := by
  intro ops later
  obtain ⟨tl, htl, hlost⟩ := tier_invariant (P := Lost o) ops
    (fun _ _ _ _ _ ht _ heffect h => h.next ht heffect) ht h
  have hdead : ∀ k, tl.contents.drain.find later.inUse k ≠ some o := by
    intro k hk
    cases hlost.unowned.symm.trans (Contents.isAlive_of_find hk)
  obtain ⟨hslots, howners⟩ := not_or.mp (mt Tier.isAlive_iff_owners.mpr (Bool.eq_false_iff.mp hlost.unowned))
  refine ⟨Bool.eq_false_iff.mpr hslots, ?_, fun k => ⟨?_, ?_⟩⟩
  · rw [Chain.owners_of_tier htl]
    exact Nat.eq_zero_of_not_pos howners
  · rw [Chain.get_of_tier htl]
    exact hdead k
  · rw [(Chain.remove_of_tier htl later.inUse k).1]
    exact hdead k

/-- Wherever a run over a chain with a weak layer gets to, its tier is consistent. -/
theorem consistent_run (name : String) {layers : List Layer} (ops : List (Operation K)) {pinCount : Nat}
    (hweak : .weak pinCount ∈ layers) : let later : Session K := ops.foldl next (start name layers)
    ∃ t, later.chain.tier? = some t ∧ later.Consistent t := by
  obtain ⟨t₀, ht₀⟩ := Chain.tier?_ofLayers (K := K) (V := Object String) name hweak
  exact tier_invariant (P := Consistent) ops (fun _ _ _ _ _ ht ht' heffect h => h.next ht ht' heffect) ht₀
    (.start ht₀)

/-- An entry that no put has renewed was there all the time. -/
theorem stored_run {k : K} (ops : List (Operation K)) (h : ∀ e ∈ s.exchanges ops, e.puts k = false)
    (hs : (ops.foldl next s).chain.stored k = some o) : s.chain.stored k = some o := by
  induction ops generalizing s with
  | nil => exact hs
  | cons op ops ih =>
    have hnext := ih (fun e he => h e (List.mem_append_right _ he)) hs
    obtain ⟨hold, -⟩ | ⟨k', hput, hk⟩ := stored_next hnext
    · exact hold
    · have hspared := h (.put k' o) (List.mem_append_left _ (Option.mem_toList.mpr hput))
      cases hspared.symm.trans hk

/-- It is enough that what is stored under the key is lost. -/
theorem AbsentUntilPut.of_stored {k : K} (h : ∀ o, s.chain.stored k = some o → s.Forgotten o) :
    s.AbsentUntilPut k := by
  intro ops hputs later j hkj
  have law := Chain.faithful (K := K) later.inUse
  have hjk : (j == k) = true := BEq.symm hkj
  refine ⟨Option.eq_none_iff_forall_ne_some.mpr fun o ho => ?_,
    Option.eq_none_iff_forall_ne_some.mpr fun o ho => ?_⟩
  · exact ((h o (stored_run ops hputs (law.get_some ho hjk)) ops).2.2 j).1 ho
  · exact ((h o (stored_run ops hputs (law.remove_some ho hjk)) ops).2.2 j).2 ho

end ResultCache.Session
