import ResultCache.Proofs.Session.Objects
import ResultCache.Proofs.Tier.Pins

/-! Which objects a run has pinned. They are those found by the last lookups since the last clear, and a
pass of the queue reclaims none of them. -/
namespace ResultCache
namespace Exchange
variable {K V : Type}

def retrieved? : Exchange K V → Option V
  | get _ found => found
  | _ => none

def isClear : Exchange K V → Bool
  | clear => true
  | _ => false

/-- The values that lookups found since the last clear, the one found last in front. -/
def retrievals (log : List (Exchange K V)) : List V :=
  (log.reverse.takeWhile fun e => !e.isClear).filterMap retrieved?

theorem retrievals_concat {e : Exchange K V} (h : e.isClear = false) (log : List (Exchange K V)) :
    retrievals (log ++ [e]) = e.retrieved?.toList ++ retrievals log := by
  rw [retrievals, List.reverse_concat, List.takeWhile_cons_of_pos (by rw [h]; rfl), List.filterMap_cons]
  cases e.retrieved? <;> rfl

theorem retrievals_concat_clear (log : List (Exchange K V)) : retrievals (log ++ [.clear]) = [] := by
  rw [retrievals, List.reverse_concat]
  rfl

/-- A value found is among the last ones until so many more have been found. -/
theorem mem_take_retrievals {earlier since : List (Exchange K V)} {k : K} {v : V} {n : Nat}
    (hclear : ∀ e ∈ since, e.isClear = false) (hfew : (since.filterMap retrieved?).length < n) :
    v ∈ (retrievals (earlier ++ .get k (some v) :: since)).take n := by
  have hsince : retrievals (earlier ++ .get k (some v) :: since) =
      since.reverse.filterMap retrieved? ++ v :: retrievals earlier := by
    have hpos : ∀ e ∈ since.reverse, (!e.isClear) = true := fun e he => by
      rw [hclear e (List.mem_reverse.mp he)]
      rfl
    rw [retrievals, List.reverse_append, List.reverse_cons, List.append_assoc,
      List.takeWhile_append_of_pos hpos, List.filterMap_append]
    rfl
  have hlength : (since.reverse.filterMap retrieved?).length < n := by
    rwa [List.filterMap_reverse, List.length_reverse]
  rw [hsince, List.take_append, List.mem_append]
  refine .inr ?_
  obtain ⟨places, hplaces⟩ := Nat.exists_eq_add_of_lt hlength
  rw [hplaces, Nat.add_assoc, Nat.add_sub_cancel_left, List.take_succ_cons]
  exact List.mem_cons_self

end Exchange

open Exchange (retrieved? retrievals)

namespace Session
variable {K : Type} [BEq K] [Hashable K]

private theorem found_eq {s : Session K} {op : Operation K} {k : K} {found : Option (Object String)}
    (h : s.exchange? op = some (.get k found)) : found = (s.chain.get s.inUse k).answer := by
  cases op with
  | slot action => cases h
  | queue action => cases h
  | put key value =>
    obtain ⟨taken, -, hput⟩ := Option.map_eq_some_iff.mp h
    cases hput
  | get key keep =>
    cases h
    rfl
  | remove key keep => cases h
  | size => cases h
  | clear => cases h

/-- The tier has a number of pins to keep to, and those it has are the last values found. -/
structure Pinned (pinCount : Nat) (log : List (Exchange K (Object String))) (t : Tier K (Object String)) :
    Prop where
  pinning : t.Pinning pinCount
  toList_eq : t.pins.toList = (retrievals log).take pinCount

private theorem take_append_take {α : Type} (front back : List α) (n : Nat) :
    (front ++ back.take n).take n = (front ++ back).take n := by
  rw [List.take_append, List.take_append, List.take_take, Nat.min_eq_left (Nat.sub_le n _)]

private theorem Pinned.next {pinCount : Nat} {log : List (Exchange K (Object String))} {s : Session K}
    {t t' : Tier K (Object String)} (h : Pinned pinCount log t) (ht : s.chain.tier? = some t)
    {op : Operation K} (heffect : s.TierEffect op t t') :
    Pinned pinCount (log ++ (s.exchange? op).toList) t' := by
  cases heffect with
  | request e dropped exchanged tier =>
    have hpins := Tier.Contents.pins_run (c := t.contents) h.pinning.size_le s.inUse
      (t.under.evictedBy e.request) e.request
    rw [← h.pinning.pinCount_eq, ← Tier.run_contents, h.pinning.pinCount_eq] at hpins
    rw [exchanged, Option.toList_some, tier]
    refine ⟨Cache.removeEach_preserves (fun _ k hp => hp.run s.inUse (.remove k))
      (h.pinning.run s.inUse e.request) dropped, ?_⟩
    rw [Tier.pins_removeEach]
    refine hpins.trans ?_
    cases e with
    | get k found =>
      rw [Exchange.retrievals_concat rfl, found_eq exchanged, Chain.get_of_tier ht]
      change (_ ++ t.pins.toList).take pinCount = _
      rw [h.toList_eq, take_append_take]
      rfl
    | clear =>
      rw [Exchange.retrievals_concat_clear, List.take_nil]
      rfl
    | _ =>
      rw [Exchange.retrievals_concat rfl]
      exact h.toList_eq
  | queue action acted tier =>
    subst acted
    rw [tier, exchange?, Option.toList_none, List.append_nil]
    cases action <;> exact ⟨⟨h.pinning.pinCount_eq, h.pinning.size_le⟩, h.toList_eq⟩
  | none exchanged idle tier =>
    rw [tier, exchanged, Option.toList_none, List.append_nil]
    exact h

/-- The log of a run tells the pins wherever the run gets to. -/
theorem Pinned.run {pinCount : Nat} {log : List (Exchange K (Object String))} {s : Session K}
    {t : Tier K (Object String)} (h : Pinned pinCount log t) (ht : s.chain.tier? = some t)
    (ops : List (Operation K)) :
    ∃ t', (ops.foldl Session.next s).chain.tier? = some t' ∧ Pinned pinCount (log ++ s.exchanges ops) t' := by
  induction ops generalizing s t log with
  | nil =>
    rw [exchanges, List.append_nil]
    exact ⟨t, ht, h⟩
  | cons op ops ih =>
    obtain ⟨t', ht', heffect⟩ := tierEffect ht op
    rw [exchanges, ← List.append_assoc]
    exact ih (h.next ht heffect) ht'

variable [EquivBEq K] [LawfulHashable K]

/-- Wherever a run over a chain with a weak layer gets to, the pins are the objects that the last lookups
since the last clear found, as many as there are places, the one found last in front. So as long as
fewer further lookups have found something and nothing was cleared, a pass reports no key of an object
found and leaves it registered. -/
theorem pins_track_retrievals (name : String) {beneath : List Layer} (pinCount : Nat) (around : List Layer)
    (ops : List (Operation K)) (hbeneath : ∀ n, .weak n ∉ beneath) :
    let start : Session K := start name (beneath ++ .weak pinCount :: around)
    let s := ops.foldl next start
    ∃ t, s.chain.tier? = some t ∧
      t.pins.toList = (retrievals (start.exchanges ops)).take pinCount ∧
      ∀ earlier k o since, start.exchanges ops = earlier ++ .get k (some o) :: since →
        (∀ e ∈ since, e.isClear = false) → (since.filterMap retrieved?).length < pinCount →
        ∃ keys chain, s.chain.collect? s.inUse = some (keys, chain) ∧
          ∀ j, t.queue.registered.get? j = some o → keys.contains j = false ∧
            ∃ queue, chain.queue? = some queue ∧ queue.registered.get? j = some o := by
  intro start s
  have hstart : start.chain.tier? = _ := Chain.tier?_ofLayers_weak name pinCount around hbeneath
  have hempty : Pinned pinCount [] ({ pinCount, under := (Stack.core { name }).withLayers beneath } :
      Tier K (Object String)) := ⟨⟨rfl, Nat.zero_le pinCount⟩, List.take_nil.symm⟩
  obtain ⟨t, ht, hpinned⟩ := hempty.run hstart ops
  refine ⟨t, ht, hpinned.toList_eq, fun earlier k o since hlog hclear hfew => ?_⟩
  have hpin : o ∈ t.pins.toList := by
    rw [hpinned.toList_eq, hlog]
    exact Exchange.mem_take_retrievals hclear hfew
  obtain ⟨chain, hcollect, htier⟩ := Chain.onTier?_of_tier ht (·.collect s.inUse)
  refine ⟨_, chain, hcollect, fun j hj => ?_⟩
  obtain ⟨hreported, hkept⟩ := t.collect_keeps_pinned hpin s.inUse hj
  exact ⟨hreported, _, congrArg (Option.map Tier.queue) htier, hkept⟩

/-- The program has let go of the object that it found, and a pass spares it. -/
theorem pins_track_retrievals_of_released :
    let start : Session Nat := start "rows" ([.logging] ++ .weak 1 :: [])
    let ops : List (Operation Nat) :=
      [.slot (.hold "a" "x"), .put 1 (.slot "a"), .get 1 none, .slot (.release "a")]
    let s := ops.foldl next start
    (∀ n, .weak n ∉ [Layer.logging]) ∧ s.inUse ⟨0, "x"⟩ = false ∧
      (∃ t, s.chain.tier? = some t ∧ t.pins.toList = [⟨0, "x"⟩]) ∧
      ∃ keys chain, s.chain.collect? s.inUse = some (keys, chain) ∧ keys.contains 1 = false := by
  intro start ops s
  have hbeneath : ∀ n, .weak n ∉ [Layer.logging] := by simp
  let held : Host String := ({} : Host String).hold "a" "x"
  let t : Tier Nat (Object String) := { pinCount := 1, under := (Stack.core { name := "rows" }).withLogging }
  let put := (t.put 1 ⟨0, "x"⟩).cache
  have hstored : put.contents.drain.entries[1]? = some ⟨1, ⟨0, "x"⟩⟩ :=
    Std.HashMap.getElem?_insert_self
  have hfound : (put.get held.inUse 1).answer = some ⟨0, "x"⟩ := by
    rw [(put.get_contents held.inUse 1).2, Tier.Contents.find, hstored]
    rfl
  have hlog : start.exchanges ops = [.put 1 ⟨0, "x"⟩, .get 1 (some ⟨0, "x"⟩)] := by
    rw [← hfound]
    rfl
  obtain ⟨got, hgot, hpins, hspared⟩ :=
    pins_track_retrievals (K := Nat) "rows" 1 [] ops hbeneath
  obtain ⟨keys, chain, hcollect, hkeys⟩ :=
    hspared [.put 1 ⟨0, "x"⟩] 1 ⟨0, "x"⟩ [] hlog (fun e he => (List.not_mem_nil he).elim) Nat.one_pos
  have hregistered : got.queue.registered.get? 1 = some ⟨0, "x"⟩ := by
    have hlooked : got = (put.get held.inUse 1).cache := (Option.some.inj hgot).symm
    change got.contents.registered.get? 1 = _
    rw [hlooked, (put.get_contents held.inUse 1).1, Tier.Contents.registered_lookedUp]
    exact Registry.get?_insert
  refine ⟨hbeneath, rfl, ⟨got, hgot, ?_⟩, keys, chain, hcollect, (hkeys 1 hregistered).1⟩
  rw [hpins, hlog]
  rfl

end Session
end ResultCache
