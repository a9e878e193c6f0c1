import Mathlib.Data.List.Induction
import ResultCache.Proofs.Chain.Removal
import ResultCache.Proofs.Session.Lifetime
import ResultCache.Proofs.Session.Retention
import ResultCache.Proofs.Tier.Removal

/-! What a removal does to a chain. It finds what a lookup would have found and touches its own key alone. Another key
can notice only if the program has taken its registration away. -/
namespace ResultCache.Session
open Tier (Contents)
variable {K : Type} [BEq K] [Hashable K]

/-- The program has taken the registration under a key out of the queue, and has not put the key since. -/
def Disowned (s : Session K) (ops : List (Operation K)) (k : K) : Prop :=
  ∃ before op after, ops = before ++ op :: after ∧ op.spares k = false ∧
    ∀ e ∈ ((before.foldl next s).next op).exchanges after, e.puts k = false

private theorem Disowned.last (s : Session K) (ops : List (Operation K)) {op : Operation K} {k : K}
    (h : op.spares k = false) : s.Disowned (ops ++ [op]) k :=
  ⟨ops, op, [], rfl, h, fun _ he => (List.not_mem_nil he).elim⟩

private theorem Disowned.more {s : Session K} {ops : List (Operation K)} {op : Operation K} {k : K}
    (h : s.Disowned ops k) (hop : ∀ e ∈ (ops.foldl next s).exchange? op, e.puts k = false) :
    s.Disowned (ops ++ [op]) k := by
  obtain ⟨before, first, after, rfl, hspares, hafter⟩ := h
  refine ⟨before, first, after ++ [op], by rw [List.append_assoc, List.cons_append], hspares, fun e he => ?_⟩
  rw [exchanges_append] at he
  rw [List.foldl_append, List.foldl_cons] at hop
  obtain he | he := List.mem_append.mp he
  · exact hafter e he
  · rw [exchanges, exchanges, List.append_nil, Option.mem_toList] at he
    exact hop e he

private theorem strong_run (name : String) {layers : List Layer} (ops : List (Operation K))
    (h : ∀ n, .weak n ∉ layers) : (ops.foldl next (start name layers)).chain.tier? = none := by
  refine chain_invariant (P := fun c => c.tier? = none) (fun c inUse request hc => ?_) (fun c inUse action hc => ?_)
    ?_ ops
  · cases c with
    | strong stack =>
      rw [Chain.run_strong]
      rfl
    | weak stack => cases hc
  · rw [Chain.tier?_mapTier, hc]
    rfl
  · rw [start, Chain.ofLayers_strong name h]
    rfl

variable [EquivBEq K] [LawfulHashable K]

private theorem registered_of_stored_next {s : Session K} {t t' : Tier K (Object String)} (h : s.Consistent t)
    (ht : s.chain.tier? = some t) {op : Operation K} (heffect : s.TierEffect op t t') {k : K}
    (hspares : op.spares k = true) {o : Object String} (hs : t'.contents.stored k = some o)
    (halive : t'.contents.isAlive (s.next op).inUse o = true) :
    t'.queue.registered.get? k = some o ∨
      t.contents.stored k = some o ∧ t'.queue.registered.get? k = t.queue.registered.get? k ∧
        ∀ e ∈ s.exchange? op, e.puts k = false := by
  cases heffect with
  | request e dropped exchanged tier =>
    subst tier
    have hputs : (∀ k' v', e.request = .put k' v' → (k' == k) = false) →
        ∀ e ∈ s.exchange? op, e.puts k = false := by
      intro hno e' he'
      cases exchanged.symm.trans he'
      cases e with
      | put k' v' => exact hno k' v' rfl
      | _ => rfl
    refine Tier.contents_removeEach (P := fun c => c.stored k = some o → c.registered.get? k = some o ∨
      t.contents.stored k = some o ∧ c.registered.get? k = t.queue.registered.get? k ∧
        ∀ e ∈ s.exchange? op, e.puts k = false) (fun j _ c hc hstored => ?_) (fun hstored => ?_) s.inUse hs
    · obtain ⟨hj, hold⟩ := Contents.stored_remove hstored
      rw [Contents.registered_remove hj]
      exact hc (Contents.stored_drain hold)
    · rw [Tier.run_contents] at hstored ⊢
      refine (Contents.registered_of_stored_run hstored).imp_right fun ⟨hno, hold, hreg⟩ => ?_
      exact ⟨hold, hreg, hputs hno⟩
  | queue action acted tier =>
    subst acted tier
    have hidle : ∀ e ∈ s.exchange? (.queue action), e.puts k = false := nofun
    have hstored : t.contents.stored k = some o := by
      cases action <;> exact hs
    cases action with
    | collect =>
      rw [inUse_collect] at halive
      exact .inr ⟨hstored, h.coherent.registered_collect_of_isAlive hstored halive, hidle⟩
    | poll => exact .inr ⟨hstored, rfl, hidle⟩
    | drain => exact .inr ⟨hstored, rfl, hidle⟩
    | unregister key keep =>
      refine .inr ⟨hstored, ?_, hidle⟩
      change (t.queue.registered.erase key).get? k = _
      have hother : (key == k) = false := by simpa [Operation.spares] using hspares
      simp [hother]
    | clear => cases hspares
  | none exchanged idle tier =>
    subst tier
    exact .inr ⟨hs, rfl, fun e he => by cases exchanged.symm.trans he⟩

private theorem registered_or_disowned (name : String) {layers : List Layer} (ops : List (Operation K))
    {pinCount : Nat} (hweak : .weak pinCount ∈ layers) {t : Tier K (Object String)}
    (ht : (ops.foldl next (start name layers)).chain.tier? = some t) {k : K} {o : Object String}
    (hs : t.contents.stored k = some o)
    (halive : t.contents.isAlive (ops.foldl next (start name layers)).inUse o = true) :
    t.queue.registered.get? k = some o ∨ (start name layers).Disowned ops k := by
  -- unless the last operation disowns the key, the object was stored and alive before it
  induction ops using List.reverseRecOn generalizing t with
  | nil =>
    have hempty : t.contents = .empty := Chain.contents_ofLayers ht
    obtain ⟨handle, he, -⟩ := Contents.stored_eq_some.mp hs
    rw [hempty, Contents.empty, Std.HashMap.getElem?_empty] at he
    cases he
  | append_singleton ops op ih =>
    obtain ⟨t₀, ht₀, hconsistent⟩ := consistent_run name ops hweak
    obtain ⟨t₁, ht₁, heffect⟩ := tierEffect ht₀ op
    rw [List.foldl_append] at ht halive
    cases ht.symm.trans ht₁
    cases hspares : op.spares k with
    | false => exact .inr (.last _ ops hspares)
    | true =>
      obtain hreg | ⟨hold, hreg, hputs⟩ := registered_of_stored_next hconsistent ht₀ heffect hspares hs halive
      · exact .inl hreg
      · have hbefore : t₀.contents.isAlive (ops.foldl next (start name layers)).inUse o = true := by
          obtain hbefore | hid := alive_next ht₀ heffect halive
          · exact hbefore
          · have := hconsistent.stored k o hold
            omega
        rw [hreg]
        exact (ih ht₀ hold hbefore).imp_right fun hdisowned => hdisowned.more hputs

/-- Wherever a run gets to, a removal finds what a lookup would have found. Nothing is found under the key from then on
until it is put, and it is neither registered nor reported; the pins, the order of keys in every recency layer and the
registrations of other keys stay. With the slots as they were, a lookup of another key finds what it found before, but
for one case: the program had disowned that key, and what is stored there is the very object whose registration goes
with the removed key. -/
theorem remove_touches_key_alone (name : String) (layers : List Layer) (ops : List (Operation K)) (k : K)
    (keep : Option String) :
    let first : Session K := start name layers
    let s := ops.foldl next first
    let s' := s.next (.remove k keep)
    (s.chain.remove s.inUse k).answer = (s.chain.get s.inUse k).answer ∧ s'.AbsentUntilPut k ∧
      s'.chain.recencies = s.chain.recencies ∧
      (∀ t, s.chain.tier? = some t → ∃ t', s'.chain.tier? = some t' ∧ t'.pins = t.pins ∧
        t'.queue.registered.get? k = none ∧ t'.queue.pending.contains k = false ∧
        ∀ j, (k == j) = false → t'.queue.registered.get? j = t.queue.registered.get? j) ∧
      ∀ j, (k == j) = false → (s'.chain.get s.inUse j).answer = (s.chain.get s.inUse j).answer ∨
        ∃ t o, s.chain.tier? = some t ∧ s.chain.stored j = some o ∧ t.queue.registered.get? k = some o ∧
          t.queue.registered.get? j = none ∧ first.Disowned ops j := by
  intro first s s'
  refine ⟨Chain.remove_answer s.inUse s.chain k, .of_stored fun o hs => ?_,
    Chain.recencies_remove s.inUse s.chain k, fun t ht => ?_, fun j hj => ?_⟩
  · obtain ⟨hk, -⟩ := (Chain.faithful (K := K) s.inUse).remove hs
    cases hk.symm.trans BEq.rfl
  · have hcontents := (t.remove_contents s.inUse k).1
    refine ⟨(t.remove s.inUse k).cache, (Chain.remove_of_tier ht s.inUse k).2, congrArg Contents.pins hcontents,
      ?_, ?_, fun j hj => ?_⟩
    · refine (congrArg (fun c : Contents K (Object String) => c.registered.get? k) hcontents).trans ?_
      change (t.queue.registered.erase k).get? k = none
      simp
    · exact congrArg (fun c : Contents K (Object String) => c.pending.contains k) hcontents
    · refine (congrArg (fun c : Contents K (Object String) => c.registered.get? j) hcontents).trans ?_
      exact Contents.registered_remove hj
  · by_cases hweak : ∃ pinCount, .weak pinCount ∈ layers
    · obtain ⟨pinCount, hweak⟩ := hweak
      obtain ⟨t, ht, hconsistent⟩ := consistent_run name ops hweak
      have hafter : s'.chain.tier? = some (t.remove s.inUse k).cache := (Chain.remove_of_tier ht s.inUse k).2
      rw [Chain.get_of_tier hafter, Chain.get_of_tier ht, (t.remove_contents s.inUse k).1]
      refine (hconsistent.coherent.find_remove hj).imp_right ?_
      rintro ⟨o, hfind, hk, hnone⟩
      obtain ⟨hs, halive⟩ := hconsistent.coherent.find_drain_iff.mp hfind
      refine ⟨t, o, ht, (Chain.stored_of_tier ht j).trans hs, hk, hnone, ?_⟩
      refine (registered_or_disowned name ops hweak ht hs halive).resolve_left fun hr => ?_
      cases hnone.symm.trans hr
    · have hstrong := strong_run (K := K) name ops fun n hn => hweak ⟨n, hn⟩
      exact .inl (Chain.get_remove_of_strong hstrong s.inUse hj)

/-- The exception does occur: an object put under two keys and disowned under one of them is lost to both when the
other is removed. -/
theorem remove_loses_disowned_of_two :
    let s : Session Nat := [.slot (.hold "a" "x"), .put 1 (.slot "a"), .put 2 (.slot "a"),
      .queue (.unregister 2 none), .slot (.release "a")].foldl next (start "rows" [.weak 0])
    (s.chain.get s.inUse 2).answer = some ⟨0, "x"⟩ ∧
      ((s.next (.remove 1 none)).chain.get s.inUse 2).answer = none := by
  intro s
  obtain ⟨t, ht⟩ : ∃ t, s.chain.tier? = some t := ⟨_, rfl⟩
  have hcontents : t.contents = ⟨((∅ : Std.HashMap Nat (Handle Nat (Object String))).insert 1 ⟨1, ⟨0, "x"⟩⟩).insert 2
      ⟨2, ⟨0, "x"⟩⟩, ((Registry.empty.insert 1 ⟨0, "x"⟩).insert 2 ⟨0, "x"⟩).erase 2, [], .empty⟩ :=
    congrArg Tier.contents (Option.some.inj ht).symm
  have hafter : (s.next (.remove 1 none)).chain.tier? = some (t.remove s.inUse 1).cache :=
    (Chain.remove_of_tier ht s.inUse 1).2
  have hunused : s.inUse ⟨0, "x"⟩ = false := rfl
  have hget : ∀ k, t.contents.registered.get? k = if 2 == k then none else if 1 == k then some ⟨0, "x"⟩ else none :=
    fun k => by simp +contextual [hcontents]
  have hstored : t.contents.stored 2 = some ⟨0, "x"⟩ := by
    simp [hcontents, Contents.stored]
  have hpins : t.contents.pins.contains ⟨0, "x"⟩ = false := by simp [hcontents]
  have hweak : Layer.weak 0 ∈ [Layer.weak 0] := List.mem_singleton.mpr rfl
  obtain ⟨t₁, ht₁, hconsistent⟩ := consistent_run (K := Nat) "rows" [.slot (.hold "a" "x"), .put 1 (.slot "a"),
    .put 2 (.slot "a"), .queue (.unregister 2 none), .slot (.release "a")] hweak
  cases ht.symm.trans ht₁
  have hcoherent : t.contents.Coherent s.inUse := hconsistent.coherent
  rw [Chain.get_of_tier ht, Chain.get_of_tier hafter, (t.remove_contents s.inUse 1).1]
  refine ⟨hcoherent.find_drain_iff.mpr ⟨hstored, ?_⟩, Option.eq_none_iff_forall_ne_some.mpr fun o ho => ?_⟩
  · exact Contents.isAlive_iff.mpr (.inr (.inr ⟨1, hget 1⟩))
  · obtain ⟨hs, halive⟩ := (hcoherent.run s.inUse s.inUse 0 [] (.remove 1)).find_drain_iff.mp ho
    cases hstored.symm.trans (Contents.stored_drain (Contents.stored_remove hs).2)
    obtain hu | hp | ⟨k, hk⟩ := Contents.isAlive_iff.mp halive
    · cases hunused.symm.trans hu
    · cases hpins.symm.trans hp
    · change (t.contents.registered.erase 1).get? k = _ at hk
      rw [Registry.get?_erase, hget] at hk
      split at hk
      · cases hk
      · split at hk <;> cases hk

/-- Of two objects one is removed, and the other is still found. -/
theorem remove_touches_key_alone_of_two :
    let s : Session Nat := [.put 1 (.fresh "x"), .put 2 (.fresh "y")].foldl next
      (start "rows" [.lru 2, .weak 1, .logging])
    let s' := s.next (.remove 1 none)
    (1 == 2) = false ∧ s'.AbsentUntilPut 1 ∧ (s'.chain.get s.inUse 2).answer = (s.chain.get s.inUse 2).answer := by
  intro s s'
  obtain ⟨-, habsent, -, -, hothers⟩ := remove_touches_key_alone (K := Nat) "rows" [.lru 2, .weak 1, .logging]
    [.put 1 (.fresh "x"), .put 2 (.fresh "y")] 1 none
  refine ⟨rfl, habsent, (hothers 2 rfl).resolve_right ?_⟩
  rintro ⟨t, o, ht, -, -, hnone, -⟩
  have hreg : t.queue.registered = (Registry.empty.insert 1 ⟨0, "x"⟩).insert 2 ⟨1, "y"⟩ :=
    congrArg (fun t => t.queue.registered) (Option.some.inj ht).symm
  simp [hreg] at hnone

end ResultCache.Session
