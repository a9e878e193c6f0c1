import ResultCache.Proofs.Chain.Faithful
import ResultCache.Proofs.Session.Step
import ResultCache.Proofs.Tier.Notices

/-! What becomes of reported keys. Each key that a pass reports is taken from the queue once, by the next
call of the chain or by the program, or is still there, and all are taken in the order of the passes. -/
namespace ResultCache
open Event (reclaims)

namespace Chain
variable {K V : Type} [BEq K] [Hashable K] [BEq V] [Hashable V]

def pending (c : Chain K V) : List K := c.queue?.elim [] Queue.pending

theorem pending_of_tier {c : Chain K V} {t : Tier K V} (h : c.tier? = some t) :
    c.pending = t.queue.pending := by
  rw [pending, queue?, h]
  rfl

theorem reports (inUse : V → Bool) : Cache.Reports (fun c : Chain K V => Tier.notice c.pending) inUse where
  reports c request := by
    cases c with
    | strong stack =>
      have hevents : (request.run inUse (strong stack)).events = (request.run () stack).events := by
        cases request <;> rfl
      rw [hevents]
      exact (Stack.reports Store.reports_nothing).reports stack request
    | weak stack =>
      have hevents : (request.run inUse (weak stack)).events = (request.run inUse stack).events := by
        cases request <;> rfl
      rw [hevents]
      exact (Stack.reports (Tier.reports inUse)).reports stack request
  settles c request := by
    cases c with
    | strong stack =>
      rw [run_strong]
      rfl
    | weak stack =>
      rw [run_weak]
      exact (Stack.reports (Tier.reports inUse)).settles stack request

end Chain

namespace Session
variable {K : Type} [BEq K] [Hashable K]

def gather {α : Type} (given : Session K → Operation K → List α) (s : Session K) :
    List (Operation K) → List α
  | [] => []
  | op :: ops => given s op ++ (s.next op).gather given ops

/-- The keys that a pass reports. -/
def reported (s : Session K) : Operation K → List K
  | .queue .collect => (s.chain.collect? s.inUse).elim [] Prod.fst
  | _ => []

/-- What the program is told of a pass, the number of reported keys. -/
def counted (s : Session K) (op : Operation K) : List Nat :=
  match op, (s.step op.action).answer with
  | .queue .collect, .count n => [n]
  | _, _ => []

def reclaimed (s : Session K) (op : Operation K) : List Nat := reclaims (s.step op.action).events

def handedOut (s : Session K) (op : Operation K) : List K :=
  match op, (s.step op.action).answer with
  | .queue .poll, .key key => key.toList
  | .queue .drain, .keys keys => keys
  | _, _ => []

/-- The keys that are thrown away when the program clears the queue. -/
def discarded (s : Session K) : Operation K → List K
  | .queue .clear => s.chain.pending
  | _ => []

/-- The keys that leave the queue. A call of the chain takes all of them. -/
def taken (s : Session K) (op : Operation K) : List K :=
  (if (s.exchange? op).isSome then s.chain.pending else []) ++ s.handedOut op ++ s.discarded op

private theorem given_of_tier {s : Session K} {t : Tier K (Object String)} (ht : s.chain.tier? = some t) :
    s.reported (.queue .collect) = (t.collect s.inUse).1 ∧
      s.counted (.queue .collect) = [(t.collect s.inUse).1.length] ∧
      s.handedOut (.queue .poll) = t.queue.pending.head?.toList ∧
      s.handedOut (.queue .drain) = t.queue.pending := by
  obtain ⟨chain, host, unwrapped⟩ := s
  cases chain with
  | strong stack => cases ht
  | weak stack =>
    cases ht
    exact ⟨rfl, rfl, rfl, rfl⟩

private theorem queue_or_nothing (s : Session K) (op : Operation K) :
    (∃ action t, op = .queue action ∧ s.chain.tier? = some t) ∨
      s.reported op = [] ∧ s.counted op = [] ∧ s.handedOut op = [] ∧ s.discarded op = [] ∧
        (s.exchange? op = none → (s.next op).chain = s.chain) := by
  cases op with
  | queue action =>
    obtain ⟨chain, host, unwrapped⟩ := s
    cases chain with
    | strong stack =>
      right
      cases action <;> exact ⟨rfl, rfl, rfl, rfl, fun _ => rfl⟩
    | weak stack => exact .inl ⟨action, stack.inner, rfl, rfl⟩
  | _ =>
    refine .inr ⟨rfl, rfl, rfl, rfl, fun hx => ?_⟩
    cases s.effect _ with
    | request e exchanged chain => cases exchanged.symm.trans hx
    | queue action acted chain => cases acted
    | none exchanged idle chain => exact chain

/-- A call of the chain leaves no key in the queue. -/
theorem pending_of_exchanged {s : Session K} {op : Operation K} {e : Exchange K (Object String)}
    (h : s.exchange? op = some e) : (s.next op).chain.pending = [] := by
  cases s.effect op with
  | request e' exchanged chain =>
    rw [chain]
    exact Tier.notice_eq_nil ((Chain.reports s.inUse).settles s.chain e'.request)
  | queue action acted chain =>
    subst acted
    cases h
  | none exchanged idle chain => cases exchanged.symm.trans h

private theorem pending_queue {s : Session K} {t : Tier K (Object String)} (ht : s.chain.tier? = some t)
    (action : QueueAction K) : s.chain.pending ++ s.reported (.queue action) =
      s.taken (.queue action) ++ (s.next (.queue action)).chain.pending := by
  obtain ⟨hreported, -, hpoll, hdrain⟩ := given_of_tier ht
  rw [taken, Chain.pending_of_tier (tier?_queue ht action)]
  cases action with
  | collect =>
    rw [hreported, Chain.pending_of_tier ht]
    rfl
  | poll =>
    rw [hpoll, Chain.pending_of_tier ht]
    change t.queue.pending ++ [] = [] ++ t.queue.pending.head?.toList ++ [] ++ t.queue.pending.tail
    cases t.queue.pending <;> simp
  | drain =>
    rw [hdrain, Chain.pending_of_tier ht]
    change t.queue.pending ++ [] = [] ++ t.queue.pending ++ [] ++ []
    simp
  | unregister key keep =>
    rw [Chain.pending_of_tier ht]
    exact List.append_nil _
  | clear =>
    rw [discarded, Chain.pending_of_tier ht]
    change t.queue.pending ++ [] = [] ++ [] ++ t.queue.pending ++ []
    simp

/-- The keys that wait and those that a step reports are the keys that it takes and those that wait
afterwards, in the same order. -/
theorem pending_next (s : Session K) (op : Operation K) :
    s.chain.pending ++ s.reported op = s.taken op ++ (s.next op).chain.pending := by
  rcases s.queue_or_nothing op with ⟨action, t, rfl, ht⟩ | ⟨hreported, -, hhanded, hdiscarded, hidle⟩
  · exact pending_queue ht action
  · rw [taken, hreported, hhanded, hdiscarded]
    cases hx : s.exchange? op with
    | none => simp [hidle hx]
    | some e => simp [pending_of_exchanged hx]

private theorem sum_counted (s : Session K) (op : Operation K) :
    (s.counted op).sum = (s.reported op).length := by
  rcases s.queue_or_nothing op with ⟨action, t, rfl, ht⟩ | ⟨hreported, hcounted, -⟩
  · obtain ⟨hreported, hcounted, -⟩ := given_of_tier ht
    cases action with
    | collect =>
      rw [hreported, hcounted]
      exact List.sum_singleton
    | _ => rfl
  · rw [hreported, hcounted]
    rfl

/-- The events of a call report as many reclaimed values as there are keys that it takes. -/
theorem sum_reclaimed (s : Session K) (op : Operation K) :
    (s.reclaimed op).sum = (if (s.exchange? op).isSome then s.chain.pending else []).length := by
  rw [reclaimed, events_step]
  cases s.exchange? op with
  | none => rfl
  | some e =>
    rw [Option.elim_some, (Chain.reports s.inUse).reports, Tier.sum_notice]
    rfl

private theorem balance_next (s : Session K) (op : Operation K) :
    s.chain.pending.length + (s.counted op).sum = (s.reclaimed op).sum + (s.handedOut op).length +
      (s.discarded op).length + (s.next op).chain.pending.length := by
  have hlength := congrArg List.length (s.pending_next op)
  rw [taken] at hlength
  simp only [List.length_append] at hlength
  rw [sum_counted, sum_reclaimed, hlength]

/-- The keys that wait and those that a run reports are those that it takes and those that wait in the
end. -/
theorem pending_run (s : Session K) (ops : List (Operation K)) :
    s.chain.pending ++ s.gather reported ops =
      s.gather taken ops ++ (ops.foldl next s).chain.pending := by
  induction ops generalizing s with
  | nil => exact List.append_nil _
  | cons op ops ih =>
    rw [gather, gather, ← List.append_assoc, pending_next, List.append_assoc, ih, List.append_assoc]
    rfl

theorem balance_run (s : Session K) (ops : List (Operation K)) :
    s.chain.pending.length + (s.gather counted ops).sum = (s.gather reclaimed ops).sum +
      (s.gather handedOut ops).length + (s.gather discarded ops).length +
      (ops.foldl next s).chain.pending.length := by
  induction ops generalizing s with
  | nil => simp [gather]
  | cons op ops ih =>
    have hnext := s.balance_next op
    have hrest := ih (s.next op)
    simp only [gather, List.sum_append, List.length_append, List.foldl_cons]
    omega

private theorem pending_start (name : String) (layers : List Layer) :
    (start name layers : Session K).chain.pending = [] := by
  cases ht : (start name layers : Session K).chain.tier? with
  | none =>
    rw [Chain.pending, Chain.queue?, ht]
    rfl
  | some t =>
    rw [Chain.pending_of_tier ht]
    exact congrArg Tier.Contents.pending (Chain.contents_ofLayers ht)

variable [EquivBEq K] [LawfulHashable K]

private theorem stored_of_exchanged {s : Session K} {op : Operation K} {e : Exchange K (Object String)}
    (h : s.exchange? op = some e) {k : K} {o : Object String} (hk : s.chain.pending.contains k = true)
    (ho : (s.next op).chain.stored k = some o) : ∃ k', e = .put k' o ∧ (k' == k) = true := by
  cases ht : s.chain.tier? with
  | none =>
    rw [Chain.pending, Chain.queue?, ht] at hk
    cases hk
  | some t =>
    obtain ⟨t', ht', heffect⟩ := tierEffect ht op
    rw [Chain.stored_of_tier ht'] at ho
    rw [Chain.pending_of_tier ht] at hk
    cases heffect with
    | request e' dropped exchanged tier =>
      cases exchanged.symm.trans h
      -- evictions after the call add nothing, and the call itself begins by dropping the entry of the key
      have hrun : (e.request.run s.inUse t).cache.contents.stored k = some o := by
        rw [tier] at ho
        exact (Tier.faithful s.inUse).removeEach ho
      rw [Tier.run_contents] at hrun
      obtain ⟨k', hput, hk'⟩ := Tier.Contents.stored_run hk hrun
      cases e with
      | put key value =>
        cases hput
        exact ⟨_, rfl, hk'⟩
      | _ => cases hput
    | queue action acted tier =>
      subst acted
      cases h
    | none exchanged idle tier => cases exchanged.symm.trans h

/-- Wherever a run gets to, the numbers of keys that its passes have reported add up to the numbers in the
events of the tier, the keys handed out to the program, those it threw away, and those that still wait.
Keys leave the queue in the order in which the passes reported them. Each call of the chain, a clear
included, reports all keys that wait and deletes their entries. -/
theorem notices_accounted (name : String) (layers : List Layer) (ops : List (Operation K)) :
    let start : Session K := start name layers
    let s := ops.foldl next start
    (start.gather counted ops).sum = (start.gather reclaimed ops).sum +
        (start.gather handedOut ops).length + (start.gather discarded ops).length +
        s.chain.pending.length ∧
      start.gather reported ops = start.gather taken ops ++ s.chain.pending ∧
      ∀ op e, s.exchange? op = some e → (s.reclaimed op).sum = s.chain.pending.length ∧
        (s.next op).chain.pending = [] ∧
        ∀ k o, s.chain.pending.contains k = true → (s.next op).chain.stored k = some o →
          ∃ k', e = .put k' o ∧ (k' == k) = true := by
  intro start s
  have hstart : start.chain.pending = [] := pending_start name layers
  refine ⟨?_, ?_, fun op e he => ⟨?_, pending_of_exchanged he, fun k o hk => stored_of_exchanged he hk⟩⟩
  · have hbalance := start.balance_run ops
    rwa [hstart, List.length_nil, Nat.zero_add] at hbalance
  · have hpending := start.pending_run ops
    rwa [hstart, List.nil_append] at hpending
  · rw [sum_reclaimed, he]
    rfl

/-- A value is reclaimed and its key put again. The put reports the pass and drops the old entry. -/
theorem notices_accounted_of_reput :
    let start : Session Nat := start "rows" [.weak 0]
    let ops : List (Operation Nat) := [.put 1 (.fresh "x"), .queue .collect]
    let s := ops.foldl next start
    let op : Operation Nat := .put 1 (.fresh "y")
    s.chain.pending.contains 1 = true ∧ (s.next op).chain.stored 1 = some ⟨1, "y"⟩ ∧
      (∃ k, s.exchange? op = some (.put k ⟨1, "y"⟩) ∧ (k == 1) = true) ∧
      (start.gather counted ops).sum = s.chain.pending.length ∧
      (s.reclaimed op).sum = s.chain.pending.length ∧ (s.next op).chain.pending = [] := by
  intro start ops s op
  let t : Tier Nat (Object String) := { pinCount := 0, under := .core { name := "rows" } }
  let put := (t.put 1 ⟨0, "x"⟩).cache
  have hregistered : put.contents.registered.get? 1 = some ⟨0, "x"⟩ := Registry.get?_insert
  have hfree : put.contents.isFree (fun _ => false) ⟨0, "x"⟩ = true := by
    rw [← Bool.not_eq_false, Tier.Contents.isFree_eq_false_iff hregistered]
    rintro (hu | hp | ⟨j, hj, ho⟩)
    · cases hu
    · cases hp.symm.trans (Pins.contains_empty _)
    · change (Registry.empty.insert 1 _).get? j = _ at ho
      simp [hj] at ho
  have hpending : s.chain.pending.contains 1 = true := by
    have hcollected : s.chain.pending = (put.contents.collect fun _ => false).pending := rfl
    rw [hcollected, Tier.Contents.pending_collect, hregistered, Option.any_some, hfree, Bool.or_true]
  have hstored : (s.next op).chain.stored 1 = some ⟨1, "y"⟩ := by
    have hnext : (s.next op).chain.stored 1 =
      ((put.collect fun _ => false).2.put 1 ⟨1, "y"⟩).cache.contents.stored 1 := rfl
    rw [hnext, Tier.put_contents]
    exact congrArg (Option.map Handle.referent) Std.HashMap.getElem?_insert_self
  obtain ⟨hbalance, -, hcalls⟩ := notices_accounted (K := Nat) "rows" [.weak 0] ops
  have hearlier : (start.gather reclaimed ops).sum + (start.gather handedOut ops).length +
      (start.gather discarded ops).length = 0 := rfl
  rw [hearlier, Nat.zero_add] at hbalance
  obtain ⟨hreclaimed, htaken, hentries⟩ := hcalls op (.put 1 ⟨1, "y"⟩) rfl
  obtain ⟨k, hput, hk⟩ := hentries 1 ⟨1, "y"⟩ hpending hstored
  exact ⟨hpending, hstored, ⟨k, congrArg some hput, hk⟩, hbalance, hreclaimed, htaken⟩

end Session
end ResultCache
