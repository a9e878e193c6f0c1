import ResultCache.Proofs.Chain.EachRecency
import ResultCache.Proofs.Session.Draining
import ResultCache.Proofs.Session.Objects
import ResultCache.Proofs.Tier.Registration

/-! The tables of a weak tier fit together wherever a run gets to, whoever takes keys from its queue. A
handle that leads to nothing stays so, because a new object is unlike all that were made before. -/
namespace ResultCache.Session
open Tier (Contents)
variable {K : Type} [BEq K] [Hashable K]

/-- All objects in the slots and in the tier were made by the program, and the tables of the tier fit
together. -/
structure Consistent (s : Session K) (t : Tier K (Object String)) : Prop where
  slots : ∀ o, s.inUse o = true → o.id < s.host.made
  stored : ∀ k o, t.contents.stored k = some o → o.id < s.host.made
  registered : ∀ k o, t.queue.registered.get? k = some o → o.id < s.host.made
  coherent : t.contents.Coherent s.inUse

theorem Consistent.start {name : String} {layers : List Layer} {t : Tier K (Object String)}
    (ht : (start name layers : Session K).chain.tier? = some t) :
    (Session.start name layers : Session K).Consistent t := by
  have hempty : t.contents = .empty := Chain.contents_ofLayers ht
  refine ⟨fun o ho => ?_, fun k o ho => ?_, fun k o ho => ?_, ?_⟩
  · cases ho
  · simp [hempty, Contents.stored, Contents.empty] at ho
  · change t.contents.registered.get? k = some o at ho
    simp [hempty, Contents.empty] at ho
  · rw [hempty]
    refine .of_drained rfl fun k handle v he => ?_
    simp [Contents.empty] at he

variable [EquivBEq K] [LawfulHashable K]

/-- Work on the queue registers nothing. -/
theorem registered_act {t : Tier K (Object String)} {inUse : Object String → Bool}
    {action : QueueAction K} {k : K} {o : Object String}
    (h : (t.act inUse action).queue.registered.get? k = some o) :
    t.queue.registered.get? k = some o := by
  cases action with
  | collect => exact (Contents.registered_collect_iff (c := t.contents)).mp h |>.1
  | poll => exact h
  | drain => exact h
  | unregister key keep =>
    change (t.queue.registered.erase key).get? k = some o at h
    rw [Registry.get?_erase] at h
    split at h
    · cases h
    · exact h
  | clear =>
    change (Registry.empty : Registry K (Object String)).get? k = some o at h
    simp at h

private theorem coherent_act {t : Tier K (Object String)} {inUse : Object String → Bool}
    (h : t.contents.Coherent inUse) (action : QueueAction K) :
    (t.act inUse action).contents.Coherent inUse := by
  have hreg : ∀ k o, (t.act inUse action).contents.registered.get? k = some o →
      t.contents.registered.get? k = some o := fun k o ho => registered_act ho
  cases action with
  | collect => exact h.collect
  | poll => exact h.shrink rfl rfl (List.tail_sublist _) hreg
  | drain => exact h.shrink rfl rfl (List.nil_sublist _) hreg
  | unregister key keep => exact h.shrink rfl rfl (.refl _) hreg
  | clear => exact h.shrink rfl rfl (List.nil_sublist _) hreg

private theorem Consistent.world {s : Session K} {t : Tier K (Object String)} (h : s.Consistent t)
    (ht : s.chain.tier? = some t) {op : Operation K} (hop : s.exchange? op = none) :
    t.contents.Coherent (s.next op).inUse := by
  refine h.coherent.world fun k handle he hu => ?_
  rw [Contents.isAlive, Bool.or_eq_true, Bool.or_eq_true]
  rcases inUse_next hu with hold | ⟨hid, -⟩ | hfound
  · exact .inl (.inl hold)
  · have := h.stored k handle.referent (Contents.stored_eq_some.mpr ⟨handle, he, rfl⟩)
    omega
  · cases hfound with
    | stored e j exchanged stored => cases hop.symm.trans exchanged
    | registered t' j tier registered =>
      cases ht.symm.trans tier
      exact .inr (Registry.contains_of_get registered)

private theorem registered_removeEach {t : Tier K (Object String)} {inUse : Object String → Bool}
    {keys : List K} {k : K} {o : Object String}
    (h : (Cache.removeEach inUse t keys).contents.registered.get? k = some o) :
    t.contents.registered.get? k = some o := by
  refine Tier.contents_removeEach (P := fun c => c.registered.get? k = some o → _)
    (fun j _ c hc ho => ?_) id inUse h
  change (c.registered.erase j).get? k = some o at ho
  rw [Registry.get?_erase] at ho
  split at ho
  · cases ho
  · exact hc ho

/-- An operation registers no object but the one it puts. -/
theorem registered_next {s : Session K} {op : Operation K} {t t' : Tier K (Object String)}
    (h : s.TierEffect op t t') {k : K} {o : Object String}
    (ho : t'.queue.registered.get? k = some o) :
    t.queue.registered.get? k = some o ∨ ∃ k', s.exchange? op = some (.put k' o) := by
  cases h with
  | request e dropped exchanged tier =>
    rw [tier] at ho
    have hrun := registered_removeEach ho
    rw [Tier.run_contents] at hrun
    rcases Contents.registered_run hrun with hold | ⟨k', hput⟩
    · exact .inl hold
    · cases e with
      | put key value =>
        cases hput
        exact .inr ⟨_, exchanged⟩
      | _ => cases hput
  | queue action acted tier =>
    rw [tier] at ho
    exact .inl (registered_act ho)
  | none exchanged idle tier =>
    rw [tier] at ho
    exact .inl ho

private theorem coherent_next {s : Session K} {t t' : Tier K (Object String)} (h : s.Consistent t)
    (ht : s.chain.tier? = some t) {op : Operation K} (heffect : s.TierEffect op t t') :
    t'.contents.Coherent (s.next op).inUse := by
  cases heffect with
  | request e dropped exchanged tier =>
    rw [tier]
    refine Tier.contents_removeEach (fun k _ c hc => ?_) ?_ s.inUse
    · exact hc.run s.inUse (s.next op).inUse 0 [] (.remove k)
    · rw [Tier.run_contents]
      exact h.coherent.run s.inUse (s.next op).inUse t.pinCount _ e.request
  | queue action acted tier =>
    subst acted
    rw [tier, ← act_next]
    exact coherent_act (h.world ht rfl) action
  | none exchanged idle tier =>
    rw [tier]
    exact h.world ht exchanged

theorem Consistent.next {s : Session K} {t t' : Tier K (Object String)} (h : s.Consistent t)
    (ht : s.chain.tier? = some t) {op : Operation K} (ht' : (s.next op).chain.tier? = some t')
    (heffect : s.TierEffect op t t') : (s.next op).Consistent t' := by
  have hmade := s.made_le_next op
  have hput : ∀ k o, s.exchange? op = some (.put k o) → o.id < (s.next op).host.made := by
    intro k o he
    rcases put_next he with hu | hnew
    · have := h.slots o hu
      omega
    · omega
  refine ⟨fun o ho => ?_, fun k o ho => ?_, fun k o ho => ?_, coherent_next h ht heffect⟩
  · rcases inUse_next ho with hold | hnew | hfound
    · have := h.slots o hold
      omega
    · omega
    · cases hfound with
      | stored e k exchanged stored =>
        rw [Chain.stored_of_tier ht] at stored
        have := h.stored k o stored
        omega
      | registered t₀ k tier registered =>
        cases ht.symm.trans tier
        have := h.registered k o registered
        omega
  · rw [← Chain.stored_of_tier ht'] at ho
    rcases stored_next ho with ⟨hold, -⟩ | ⟨k', he, -⟩
    · rw [Chain.stored_of_tier ht] at hold
      have := h.stored k o hold
      omega
    · exact hput k' o he
  · rcases registered_next heffect ho with hold | ⟨k', he⟩
    · have := h.registered k o hold
      omega
    · exact hput k' o he

private theorem backed_next {s : Session K} {t t' : Tier K (Object String)} {op : Operation K}
    (h : t.contents.Backed) (hop : op.leavesQueue = true) (heffect : s.TierEffect op t t') :
    t'.contents.Backed := by
  cases heffect with
  | request e dropped exchanged tier =>
    rw [tier]
    refine Tier.contents_removeEach (fun k _ c hc => hc.run s.inUse 0 [] (.remove k)) ?_ s.inUse
    rw [Tier.run_contents]
    exact h.run s.inUse t.pinCount _ e.request
  | queue action acted tier =>
    subst acted
    cases action with
    | collect =>
      rw [tier]
      exact h.collect s.inUse
    | _ => cases hop
  | none exchanged idle tier =>
    rw [tier]
    exact h

/-- No layer beneath the tier evicts, so every registered or reported key has its handle. -/
structure Unevicted (t : Tier K (Object String)) : Prop where
  layers : t.under.EachRecency fun _ _ => False
  listed : t.contents.Listed

private theorem Unevicted.request {t : Tier K (Object String)} (h : Unevicted t)
    {inUse : Object String → Bool} (hcoherent : t.contents.Coherent inUse) (hbacked : t.contents.Backed)
    (request : Request K (Object String)) : Unevicted (request.run inUse t).cache := by
  have hevicted : t.under.evictedBy request = [] := by
    cases request with
    | put k v =>
      have hnone : ∀ e ∈ t.under.evictions k, False := h.layers.evictions fun _ _ hf => hf.elim
      exact List.eq_nil_iff_forall_not_mem.mpr hnone
    | _ => rfl
  refine ⟨Tier.eachRecency_change h.layers inUse request fun _ _ hf => hf.elim, ?_⟩
  rw [Tier.run_contents, hevicted]
  exact h.listed.run hcoherent hbacked inUse t.pinCount request

private theorem Unevicted.removeEach {t : Tier K (Object String)} (h : Unevicted t)
    {inUse : Object String → Bool} (hcoherent : t.contents.Coherent inUse) (hbacked : t.contents.Backed)
    (keys : List K) : Unevicted (Cache.removeEach inUse t keys) := by
  induction keys generalizing t with
  | nil => exact h
  | cons k keys ih =>
    apply ih (h.request hcoherent hbacked (.remove k))
    · rw [Tier.run_contents]
      exact hcoherent.run inUse inUse t.pinCount _ (.remove k)
    · rw [Tier.run_contents]
      exact hbacked.run inUse t.pinCount _ (.remove k)

private theorem Unevicted.next {s : Session K} {t t' : Tier K (Object String)} {op : Operation K}
    (h : Unevicted t) (hcoherent : t.contents.Coherent s.inUse) (hbacked : t.contents.Backed)
    (hop : op.leavesQueue = true) (heffect : s.TierEffect op t t') : Unevicted t' := by
  cases heffect with
  | request e dropped exchanged tier =>
    rw [tier]
    refine (h.request hcoherent hbacked e.request).removeEach ?_ ?_ dropped
    · rw [Tier.run_contents]
      exact hcoherent.run s.inUse s.inUse t.pinCount _ e.request
    · rw [Tier.run_contents]
      exact hbacked.run s.inUse t.pinCount _ e.request
  | queue action acted tier =>
    subst acted
    cases action with
    | collect =>
      rw [tier]
      exact ⟨h.layers, h.listed.collect s.inUse⟩
    | _ => cases hop
  | none exchanged idle tier =>
    rw [tier]
    exact h

/-- What holds of the weak tier all through a run with these operations over these layers. -/
structure Maintained (layers : List Layer) (ops : List (Operation K)) (s : Session K)
    (t : Tier K (Object String)) : Prop where
  consistent : s.Consistent t
  backed : (∀ op ∈ ops, op.leavesQueue = true) → t.contents.Backed
  unevicted : (∀ op ∈ ops, op.leavesQueue = true) →
    (∀ capacity, .lru capacity ∉ Layer.beneathWeak layers) → Unevicted t

omit [EquivBEq K] [LawfulHashable K] in
private theorem Maintained.start {name : String} {layers : List Layer} {ops : List (Operation K)}
    {t : Tier K (Object String)} (ht : (start name layers : Session K).chain.tier? = some t) :
    Maintained layers ops (Session.start name layers) t := by
  have hempty : t.contents = .empty := Chain.contents_ofLayers ht
  refine ⟨.start ht, fun _ => ?_, fun _ hbare => ⟨?_, ?_⟩⟩
  · rw [hempty]
    exact .empty
  · exact Chain.EachRecency.under_ofLayers (fun capacity hc => hbare capacity hc) ht
  · rw [hempty]
    exact .empty

private theorem Maintained.next {layers : List Layer} {ops : List (Operation K)} {s : Session K}
    {t t' : Tier K (Object String)} (h : Maintained layers ops s t) (ht : s.chain.tier? = some t)
    {op : Operation K} (hop : op ∈ ops) (ht' : (s.next op).chain.tier? = some t')
    (heffect : s.TierEffect op t t') : Maintained layers ops (s.next op) t' where
  consistent := h.consistent.next ht ht' heffect
  backed halone := backed_next (h.backed halone) (halone op hop) heffect
  unevicted halone hbare :=
    (h.unevicted halone hbare).next h.consistent.coherent (h.backed halone) (halone op hop) heffect

/-- Wherever a run over a chain with a weak layer gets to, the tables of the tier fit together, so
draining drops no entry whose value could be found. If nothing but the tier takes keys from its queue,
every stored handle belongs to a registered or a reported key; and without a recency layer beneath the
tier the keys of the handles are just those keys. -/
theorem tables_coherent (name : String) (layers : List Layer) (ops : List (Operation K))
    {pinCount : Nat} (hweak : .weak pinCount ∈ layers) :
    let s : Session K := ops.foldl next (start name layers)
    ∃ t, s.chain.tier? = some t ∧ t.contents.Coherent s.inUse ∧
      (∀ (k : K) handle, t.contents.entries[k]? = some handle →
        t.contents.isAlive s.inUse handle.referent = true →
          t.drain.cache.contents.entries[k]? = some handle) ∧
      ((∀ op ∈ ops, op.leavesQueue = true) → t.contents.Backed ∧
        ((∀ capacity, .lru capacity ∉ Layer.beneathWeak layers) →
          ∀ k, t.contents.entries.contains k =
            ((t.queue.registered.get? k).isSome || t.queue.pending.contains k))) := by
  intro s
  obtain ⟨t₀, ht₀⟩ := Chain.tier?_ofLayers (K := K) (V := Object String) name hweak
  obtain ⟨t, ht, hend⟩ := tier_invariant (P := Maintained layers ops) ops
    (fun op hop _ _ _ ht ht' heffect h => h.next ht hop ht' heffect) ht₀ (.start ht₀)
  refine ⟨t, ht, hend.consistent.coherent, fun k handle he ha => ?_, fun halone => ?_⟩
  · rw [Tier.drain_contents]
    exact hend.consistent.coherent.drain_keeps he ha
  · refine ⟨hend.backed halone, fun hbare k => ?_⟩
    rw [Std.HashMap.contains_eq_isSome_getElem?, Bool.eq_iff_iff, Bool.or_eq_true]
    constructor
    · intro hk
      obtain ⟨handle, he⟩ := Option.isSome_iff_exists.mp hk
      rcases hend.backed halone k handle he with hp | hr
      · exact .inr hp
      · exact .inl (Option.isSome_iff_exists.mpr ⟨_, hr⟩)
    · exact (hend.unevicted halone hbare).listed k

/-- One of two objects is reclaimed while the other is in a slot. -/
theorem tables_coherent_of_reclaimed :
    let layers : List Layer := [.logging, .weak 1, .lru 2]
    let ops : List (Operation Nat) :=
      [.slot (.hold "a" "x"), .put 1 (.slot "a"), .put 2 (.fresh "y"), .queue .collect]
    let s := ops.foldl next (start "rows" layers)
    .weak 1 ∈ layers ∧ (∀ op ∈ ops, op.leavesQueue = true) ∧
      (∀ capacity, .lru capacity ∉ Layer.beneathWeak layers) ∧
      ∃ t, s.chain.tier? = some t ∧ t.contents.Coherent s.inUse ∧
        ∀ k, t.contents.entries.contains k =
          ((t.queue.registered.get? k).isSome || t.queue.pending.contains k) := by
  intro layers ops s
  have hweak : .weak 1 ∈ layers := by decide
  have halone : ∀ op ∈ ops, op.leavesQueue = true := by decide
  have hbare : ∀ capacity, .lru capacity ∉ Layer.beneathWeak layers := by
    intro capacity hc
    rcases List.mem_singleton.mp hc with ⟨⟩
  obtain ⟨t, ht, hcoherent, -, htables⟩ := tables_coherent "rows" layers ops hweak
  exact ⟨hweak, halone, hbare, t, ht, hcoherent, (htables halone).2 hbare⟩

end ResultCache.Session
