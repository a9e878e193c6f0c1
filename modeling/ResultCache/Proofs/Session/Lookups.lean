import ResultCache.Proofs.Chain.Removal
import ResultCache.Proofs.Recency.Lookups
import ResultCache.Proofs.Session.Lifetime
import ResultCache.Proofs.Session.Removal
import ResultCache.Proofs.Stack.RecencyLayer

/-! Lookups and the order of keys in the recency layers. A layer counts every lookup of a key that it tracks, also
one that finds nothing because the value is gone. -/
namespace ResultCache

namespace Stack
variable {σ ω K V : Type} [BEq K] [Hashable K]

theorem EachRecency.of_mem {P : Recency K → Prop} {s : Stack σ K} (h : s.EachRecency fun _ => P)
    {recency : Recency K} (hr : recency ∈ s.recencies) : P recency := by
  induction s with
  | core cache => cases hr
  | lru capacity other under ih =>
    rcases List.mem_cons.mp hr with rfl | hr
    · exact h.1
    · exact ih h.2 hr
  | logging stats under ih => exact ih h hr

variable [Cache σ ω K V]

theorem recencies_get (world : ω) (s : Stack σ K) (k : K) :
    (s.get world k).cache.recencies = s.recencies.map (·.touch k) := by
  induction s with
  | core cache => rfl
  | lru capacity recency under ih => exact congrArg (recency.touch k :: ·) ih
  | logging stats under ih => exact ih

end Stack

variable {K V : Type} [BEq K] [Hashable K] [BEq V] [Hashable V]

theorem Tier.recencies_get (inUse : V → Bool) (t : Tier K V) (k : K) :
    (t.get inUse k).cache.under.recencies = t.under.recencies.map (·.touch k) := by
  obtain ⟨dead, hunder⟩ := t.under_run inUse (.get k)
  have hfound : (t.get inUse k).cache.under = _ := hunder
  rw [hfound, Stack.recencies_removeEach]
  refine (Stack.recencies_get () _ k).trans ?_
  rw [Stack.recencies_removeEach]

namespace Chain

theorem EachRecency.of_mem {P : Recency K → Prop} {c : Chain K V} (h : c.EachRecency fun _ => P)
    {recency : Recency K} (hr : recency ∈ c.recencies) : P recency := by
  cases c with
  | strong stack => exact Stack.EachRecency.of_mem h hr
  | weak stack =>
    rcases List.mem_append.mp hr with hr | hr
    · exact h.1.of_mem hr
    · exact h.2.of_mem hr

/-- A lookup is counted by all layers, those around a weak tier and those beneath it. -/
theorem recencies_get (inUse : V → Bool) (c : Chain K V) (k : K) :
    (c.get inUse k).cache.recencies = c.recencies.map (·.touch k) := by
  cases c with
  | strong stack => exact Stack.recencies_get () stack k
  | weak stack =>
    change (stack.get inUse k).cache.recencies ++ (stack.get inUse k).cache.inner.under.recencies = _
    have hinner : (stack.get inUse k).cache.inner = (stack.inner.get inUse k).cache :=
      (Stack.get_inner inUse stack k).1
    rw [Stack.recencies_get, hinner, Tier.recencies_get, recencies, List.map_append]

end Chain

namespace Session
open Tier (Contents)
variable {K : Type} [BEq K] [Hashable K] [EquivBEq K] [LawfulHashable K]

private theorem wellFormed_run (name : String) (layers : List Layer) (ops : List (Operation K)) :
    (ops.foldl next (start name layers)).chain.EachRecency fun _ => Recency.WellFormed := by
  refine chain_invariant (fun c inUse request h => ?_) (fun c inUse action h => ?_) ?_ ops
  · exact h.change inUse request fun capacity _ hw => hw.after capacity request
  · exact h.mapTier fun t => t.under_act inUse action
  · exact .ofLayers name fun _ _ => .empty

/-- Wherever a run gets to, a lookup moves its key to the newest end in every recency layer that tracks it,
whether or not anything is found, and leaves the order as it is just if the key is not tracked or is the newest
already. If the order stays, all further requests drop the keys that they would have dropped without the lookup. In
any case new keys push the tracked ones out in their order, which is the one after the lookup and not the one
before it. -/
theorem lookup_counts_tracked_key (name : String) (layers : List Layer) (ops : List (Operation K)) (k : K)
    (keep : Option String) :
    let s : Session K := ops.foldl next (start name layers)
    let s' := s.next (.get k keep)
    s'.chain.recencies = s.chain.recencies.map (·.touch k) ∧
      ∀ recency ∈ s.chain.recencies,
        (recency.touch k).toList = Recency.moveToEnd k recency.toList ∧
        ((recency.touch k).toList = recency.toList ↔
          recency.contains k = false ∨ ∃ e, recency.toList.getLast? = some e ∧ (e == k) = true) ∧
        ((recency.touch k).toList = recency.toList →
          ∀ capacity (requests : List (Request K (Object String))),
            (recency.touch k).victims capacity requests = recency.victims capacity requests) ∧
        ∀ capacity fresh (object : Object String), recency.size ≤ capacity →
          fresh.Pairwise (fun a b => (a == b) = false) → (∀ f ∈ fresh, recency.contains f = false) →
            let puts := fresh.map fun f => Request.put f object
            let count := recency.size + fresh.length - capacity
            (recency.victims capacity puts).filterMap id = (recency.toList ++ fresh).take count ∧
            ((recency.touch k).victims capacity puts).filterMap id =
              (Recency.moveToEnd k recency.toList ++ fresh).take count := by
  intro s s'
  refine ⟨Chain.recencies_get s.inUse s.chain k, fun recency hr => ?_⟩
  have hw := (wellFormed_run name layers ops).of_mem hr
  obtain ⟨hw', hmoved⟩ := hw.touch k
  refine ⟨hmoved, hw.touch_eq_iff k, fun hsame capacity => hw'.victims_congr hw hsame capacity, ?_⟩
  intro capacity fresh object hsize hd hfresh puts count
  have hsize' : (recency.touch k).size ≤ capacity := by
    rw [hw.size_touch]
    exact hsize
  have hfresh' : ∀ f ∈ fresh, (recency.touch k).contains f = false := fun f hf =>
    (recency.contains_touch k f).trans (hfresh f hf)
  refine ⟨hw.victims_new hsize hd hfresh object, ?_⟩
  rw [hw'.victims_new hsize' hd hfresh' object, hmoved, hw.size_touch k]

private theorem two_tracked : ∃ recency : Recency Nat, recency.WellFormed ∧ recency.toList = [1, 2] ∧
    ∀ (inUse inUse' : Object String → Bool) (under : Stack (Tier Nat (Object String)) Nat) (v w : Object String),
      (((Stack.lru 2 .empty under).put inUse 1 v).cache.put inUse' 2 w).cache =
        .lru 2 recency ((under.put inUse 1 v).cache.put inUse' 2 w).cache := by
  have hroom : (Recency.empty : Recency Nat).toList.length < 2 := by decide
  obtain ⟨hnone, hone⟩ := Recency.WellFormed.track_room .empty (Recency.contains_empty 1) hroom
  have hw := (Recency.WellFormed.empty.track 2 1).1
  have hnew : ((Recency.empty : Recency Nat).track 2 1).2.contains 2 = false := by
    rw [hw.contains_eq, hone]
    rfl
  have hplace : ((Recency.empty : Recency Nat).track 2 1).2.toList.length < 2 := by
    rw [hone]
    decide
  obtain ⟨hnone', htwo⟩ := hw.track_room hnew hplace
  refine ⟨_, (hw.track 2 2).1, htwo.trans (congrArg (· ++ [2]) hone), fun inUse inUse' under v w => ?_⟩
  rw [Stack.put_lru, hnone, Stack.put_lru, hnone']
  rfl

/-- Of two tracked keys the one that is not looked up is the first to go. -/
theorem lookup_counts_tracked_key_of_two :
    let s : Session Nat := [.put 1 (.fresh "x"), .put 2 (.fresh "y")].foldl next
      (start "rows" [.weak 0, .lru 2])
    let puts : List (Request Nat (Object String)) := [.put 3 ⟨2, "z"⟩]
    ∃ recency, s.chain.recencies = [recency] ∧ (recency.touch 2).toList = recency.toList ∧
      (recency.victims 2 puts).filterMap id = [1] ∧
      ((recency.touch 1).victims 2 puts).filterMap id = [2] := by
  intro s puts
  obtain ⟨recency, hw, hlist, hput⟩ := two_tracked
  have hs : s.chain.recencies = [recency] := by
    have hchain : s.chain = .weak _ := congrArg Chain.weak (hput _ _ _ _ _)
    rw [hchain]
    rfl
  have hr : recency ∈ s.chain.recencies := by
    rw [hs]
    exact List.mem_cons_self
  have hsize : recency.size = 2 := by rw [hw.size_eq, hlist]; rfl
  have hnew : ∀ f ∈ [3], recency.contains f = false := by
    rw [List.forall_mem_singleton, hw.contains_eq, hlist]
    decide
  have h := fun k => (lookup_counts_tracked_key "rows" [.weak 0, .lru 2]
    [.put 1 (.fresh "x"), .put 2 (.fresh "y")] k none).2 recency hr
  obtain ⟨hbefore, hafter⟩ := (h 1).2.2.2 2 [3] ⟨2, "z"⟩ (Nat.le_of_eq hsize)
    (List.pairwise_singleton _ _) hnew
  rw [hsize, hlist] at hbefore hafter
  refine ⟨recency, hs, (h 2).2.1.mpr (.inr ⟨2, ?_, rfl⟩), hbefore, hafter⟩
  rw [hlist]
  rfl

private theorem moved_of_two {recency : Recency Nat} (hw : recency.WellFormed) (hlist : recency.toList = [1, 2])
    (object : Object String) :
    (recency.touch 1).toList = [2, 1] ∧ recency.dropped 2 (.put 3 object) = some 1 ∧
      (recency.touch 1).dropped 2 (.put 3 object) = some 2 := by
  obtain ⟨hw', hmoved⟩ := hw.touch 1
  rw [hlist] at hmoved
  have hnew : recency.contains 3 = false := by
    rw [hw.contains_eq, hlist]
    decide
  have hnew' : (recency.touch 1).contains 3 = false := (recency.contains_touch 1 3).trans hnew
  refine ⟨hmoved, (hw.track_full hnew ?_).1.trans ?_, (hw'.track_full hnew' ?_).1.trans ?_⟩
  · rw [hlist]
    decide
  · rw [hlist]
    rfl
  · rw [hmoved]
    decide
  · rw [hmoved]
    rfl

private theorem reclaimed_of_two {t : Tier Nat (Object String)} {inUse : Object String → Bool}
    (hunused : inUse ⟨0, "x"⟩ = false)
    (hcontents : t.contents = ⟨((∅ : Std.HashMap Nat (Handle Nat (Object String))).insert 1
      ⟨1, ⟨0, "x"⟩⟩).insert 2
      ⟨2, ⟨1, "y"⟩⟩, (Registry.empty.insert 1 ⟨0, "x"⟩).insert 2 ⟨1, "y"⟩, [], .empty⟩) :
    t.contents.drain.find inUse 1 = some ⟨0, "x"⟩ ∧
      (t.collect inUse).2.contents.drain.find inUse 1 = none := by
  have hstored : t.contents.stored 1 = some ⟨0, "x"⟩ := by
    rw [hcontents]
    change Option.map _ (((∅ : Std.HashMap Nat (Handle Nat (Object String))).insert 1 _).insert 2 _)[1]? = _
    rw [Std.HashMap.getElem?_insert, if_neg (by decide), Std.HashMap.getElem?_insert_self]
    rfl
  have hget : ∀ k, t.contents.registered.get? k = if 2 == k then some ⟨1, "y"⟩ else
      if 1 == k then some ⟨0, "x"⟩ else none := fun k => by simp [hcontents]
  have hone : ∀ k, t.contents.registered.get? k = some ⟨0, "x"⟩ → 1 = k := by
    intro k hk
    rw [hget] at hk
    split at hk
    · cases hk
    · split at hk
      · next h => exact beq_iff_eq.mp h
      · cases hk
  have hpins : t.contents.pins.contains ⟨0, "x"⟩ = false := by simp [hcontents]
  constructor
  · have hdrain : t.contents.drain = t.contents := by
      rw [hcontents]
      rfl
    rw [hdrain]
    exact Option.filter_eq_some_iff.mpr ⟨hstored, Contents.isAlive_iff.mpr (.inr (.inr ⟨1, hget 1⟩))⟩
  · refine Option.eq_none_iff_forall_ne_some.mpr fun o ho => ?_
    have hleft : (t.collect inUse).2.contents.stored 1 = some o :=
      Contents.stored_drain (Option.filter_eq_some_iff.mp ho).1
    cases hstored.symm.trans hleft
    obtain hu | hp | ⟨k, hk⟩ := Contents.isAlive_iff.mp (Contents.isAlive_of_find ho)
    · cases hunused.symm.trans hu
    · cases hpins.symm.trans hp
    · -- the only key of the object was released, for it has no other
      obtain ⟨hk, hu | hp | ⟨j, hj, hreg⟩⟩ := (Contents.registered_collect_iff (c := t.contents)).mp hk
      · cases hunused.symm.trans hu
      · cases hpins.symm.trans hp
      · cases hone k hk
        cases hone j hreg
        cases hj

/-- A key whose value is reclaimed is looked up without success, and yet it becomes the newest: the next new key
pushes out the other one, whose value is in use. -/
theorem failed_lookup_moves_reclaimed_key :
    let held : Session Nat := [.put 1 (.fresh "x"), .slot (.hold "h" "y"), .put 2 (.slot "h")].foldl next
      (start "rows" [.weak 0, .lru 2])
    let s := held.next (.queue .collect)
    let s' := s.next (.get 1 none)
    let put : Request Nat (Object String) := .put 3 ⟨2, "z"⟩
    (held.chain.get held.inUse 1).answer = some ⟨0, "x"⟩ ∧ (s.chain.get s.inUse 1).answer = none ∧
      s.inUse ⟨1, "y"⟩ = true ∧
      s.chain.recencies.map Recency.toList = [[1, 2]] ∧ s'.chain.recencies.map Recency.toList = [[2, 1]] ∧
      s.chain.recencies.map (·.dropped 2 put) = [some 1] ∧
      s'.chain.recencies.map (·.dropped 2 put) = [some 2] := by
  intro held s s' put
  obtain ⟨recency, hw, hlist, hput⟩ := two_tracked
  have hchain : ∃ t, held.chain = .weak (.lru 2 recency (.core t)) ∧ t.under.recencies = [] ∧
      t.contents = ⟨((∅ : Std.HashMap Nat (Handle Nat (Object String))).insert 1 ⟨1, ⟨0, "x"⟩⟩).insert 2
        ⟨2, ⟨1, "y"⟩⟩, (Registry.empty.insert 1 ⟨0, "x"⟩).insert 2 ⟨1, "y"⟩, [], .empty⟩ :=
    ⟨_, congrArg Chain.weak (hput _ _ _ _ _), rfl, rfl⟩
  obtain ⟨t, hchain, hbeneath, hcontents⟩ := hchain
  have ht : held.chain.tier? = some t := by rw [hchain]; rfl
  have hs : s.chain.tier? = some (t.collect held.inUse).2 := tier?_queue ht .collect
  have hrecencies : s.chain.recencies = [recency] := by
    have hmap : s.chain = held.chain.mapTier (·.act held.inUse .collect) := by
      cases held.effect (.queue .collect) with
      | request e exchanged chain => cases exchanged
      | queue action acted chain =>
        cases acted
        exact chain
      | none exchanged idle chain => exact (idle .collect rfl).elim
    rw [hmap, Chain.recencies_mapTier _ fun t => t.under_act _ _, hchain]
    exact congrArg (recency :: ·) hbeneath
  have hafter : s'.chain.recencies = [recency.touch 1] := by
    have hget : s'.chain.recencies = _ := Chain.recencies_get s.inUse s.chain 1
    rw [hget, hrecencies]
    rfl
  have hunused : held.inUse ⟨0, "x"⟩ = false := rfl
  obtain ⟨hfound, hlost⟩ := reclaimed_of_two hunused hcontents
  obtain ⟨hmoved, hgone, hgone'⟩ := moved_of_two hw hlist ⟨2, "z"⟩
  rw [Chain.get_of_tier ht, Chain.get_of_tier hs, hrecencies, hafter]
  exact ⟨hfound, hlost, rfl, congrArg ([·]) hlist, congrArg ([·]) hmoved, congrArg ([·]) hgone,
    congrArg ([·]) hgone'⟩

end Session
end ResultCache
