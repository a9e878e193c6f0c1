import ResultCache.Proofs.Chain.WeakTier
import ResultCache.Proofs.Host
import ResultCache.Proofs.Session.Run

/-! What one operation of a program does to the chain: the chain gets a request, has work done on the queue
of its weak tier, or stays as it is. -/
namespace ResultCache

def Exchange.request {K V : Type} : Exchange K V → Request K V
  | put key value => .put key value
  | get key _ => .get key
  | remove key _ => .remove key
  | size _ => .size
  | clear => .clear

def Tier.act {K V : Type} [BEq K] [Hashable K] [BEq V] [Hashable V] (inUse : V → Bool) (t : Tier K V) :
    QueueAction K → Tier K V
  | .collect => (t.collect inUse).2
  | .poll => { t with queue := t.queue.poll.2 }
  | .drain => { t with queue := t.queue.drain.2 }
  | .unregister key _ => { t with queue := (t.queue.unregister key).2 }
  | .clear => { t with queue := .empty }

theorem Tier.under_act {K V : Type} [BEq K] [Hashable K] [BEq V] [Hashable V] (inUse : V → Bool)
    (t : Tier K V) (action : QueueAction K) : (t.act inUse action).under = t.under := by
  cases action <;> rfl

namespace Session
variable {K : Type} [BEq K] [Hashable K]

/-- What an operation does to the chain. -/
inductive Effect (s : Session K) (op : Operation K) : Prop
  | request (e : Exchange K (Object String)) (exchanged : s.exchange? op = some e)
    (chain : (s.next op).chain = (e.request.run s.inUse s.chain).cache)
  | queue (action : QueueAction K) (acted : op = .queue action)
    (chain : (s.next op).chain = s.chain.mapTier (·.act s.inUse action))
  | none (exchanged : s.exchange? op = none) (idle : ∀ action, op ≠ .queue action)
    (chain : (s.next op).chain = s.chain)

private theorem orElse_onTier {α : Type} (s : Session K) (otherwise : Reply K) (reply : α → Reply K)
    (f : Tier K (Object String) → α × Tier K (Object String)) :
    (s.orElse otherwise reply (s.chain.onTier? f)).cache.chain = s.chain.mapTier fun t => (f t).2 := by
  cases hc : s.chain with
  | strong stack => exact hc
  | weak stack => exact congrArg Chain.weak (Stack.mapInner_congr rfl)

private theorem chain_queueAct (s : Session K) (action : QueueAction K) :
    (s.queueAct action).cache.chain = s.chain.mapTier (·.act s.inUse action) := by
  cases action with
  | collect => exact orElse_onTier s .noQueue _ (·.collect s.inUse)
  | poll => exact orElse_onTier s .noQueue .key _
  | drain => exact orElse_onTier s .noQueue .keys _
  | unregister key keep =>
    obtain ⟨chain, host, unwrapped⟩ := s
    cases chain with
    | strong stack => rfl
    | weak stack =>
      exact congrArg Chain.weak (Stack.mapInner_congr rfl)
  | clear => exact orElse_onTier s .noQueue (fun _ => .done) _

theorem effect (s : Session K) (op : Operation K) : s.Effect op := by
  cases op with
  | slot action => exact .none rfl (fun _ => nofun) rfl
  | queue action => exact .queue action rfl (chain_queueAct s action)
  | put key value =>
    cases ht : s.host.take? value with
    | none =>
      refine .none (congrArg (Option.map _) ht) (fun _ => nofun) ?_
      change (s.put key value).cache.chain = s.chain
      rw [put, ht]
      rfl
    | some taken =>
      have hslots := (Host.take?_cases ht).1
      have hworld : taken.2.inUse = s.inUse :=
        funext fun object => congrArg (Slots.inUse · object) hslots
      refine .request (.put key taken.1) (congrArg (Option.map _) ht) ?_
      change (s.put key value).cache.chain = (s.chain.put s.inUse key taken.1).cache
      rw [put, ht, ← hworld]
      rfl
  | get key keep => exact .request _ rfl rfl
  | remove key keep => exact .request _ rfl rfl
  | size => exact .request _ rfl rfl
  | clear => exact .request _ rfl rfl

private theorem events_orElse {α : Type} (s : Session K) (otherwise : Reply K) (reply : α → Reply K)
    (result : Option (α × Chain K (Object String))) :
    (s.orElse otherwise reply result).events = [] := by
  cases result <;> rfl

private theorem events_queueAct (s : Session K) (action : QueueAction K) :
    (s.queueAct action).events = [] := by
  cases action with
  | unregister key keep =>
    rw [queueAct]
    split <;> rfl
  | _ => exact s.events_orElse _ _ _

/-- Only calls of the chain have events, and those are the events of the request. -/
theorem events_step (s : Session K) (op : Operation K) : (s.step op.action).events =
    (s.exchange? op).elim [] fun e => (e.request.run s.inUse s.chain).events := by
  cases op with
  | slot action => rfl
  | queue action => exact s.events_queueAct action
  | put key value =>
    rw [exchange?, Operation.action, step, put]
    cases ht : s.host.take? value with
    | none => rfl
    | some taken =>
      have hworld : taken.2.inUse = s.inUse :=
        funext fun object => congrArg (Slots.inUse · object) (Host.take?_cases ht).1
      rw [← hworld]
      rfl
  | get key keep => rfl
  | remove key keep => rfl
  | size => rfl
  | clear => rfl

/-- What requests and work on the queue keep true of a chain holds of it wherever a run gets to. -/
theorem chain_invariant {P : Chain K (Object String) → Prop}
    (hrequest : ∀ c inUse (request : Request K (Object String)), P c → P (request.run inUse c).cache)
    (hqueue : ∀ c inUse action, P c → P (c.mapTier (·.act inUse action)))
    {s : Session K} (h : P s.chain) (ops : List (Operation K)) : P (ops.foldl next s).chain := by
  induction ops generalizing s with
  | nil => exact h
  | cons op ops ih =>
    apply ih
    cases s.effect op with
    | request e exchanged chain =>
      rw [chain]
      exact hrequest s.chain s.inUse e.request h
    | queue action acted chain =>
      rw [chain]
      exact hqueue s.chain s.inUse action h
    | none exchanged idle chain =>
      rw [chain]
      exact h

/-- What an operation does to the weak tier. After a request the tier may have to remove more keys. -/
inductive TierEffect (s : Session K) (op : Operation K) (t t' : Tier K (Object String)) : Prop
  | request (e : Exchange K (Object String)) (dropped : List K) (exchanged : s.exchange? op = some e)
    (tier : t' = Cache.removeEach s.inUse (e.request.run s.inUse t).cache dropped)
  | queue (action : QueueAction K) (acted : op = .queue action) (tier : t' = t.act s.inUse action)
  | none (exchanged : s.exchange? op = none) (idle : ∀ action, op ≠ .queue action) (tier : t' = t)

theorem tier?_queue {s : Session K} {t : Tier K (Object String)} (h : s.chain.tier? = some t)
    (action : QueueAction K) : (s.next (.queue action)).chain.tier? = some (t.act s.inUse action) := by
  have hchain : (s.next (.queue action)).chain = _ := s.chain_queueAct action
  rw [hchain, Chain.tier?_mapTier, h]
  rfl

theorem tierEffect {s : Session K} {t : Tier K (Object String)} (h : s.chain.tier? = some t)
    (op : Operation K) : ∃ t', (s.next op).chain.tier? = some t' ∧ s.TierEffect op t t' := by
  cases s.effect op with
  | request e exchanged chain =>
    obtain ⟨dropped, hrun⟩ := Chain.tier?_run h s.inUse e.request
    exact ⟨_, by rw [chain, hrun], .request e dropped exchanged rfl⟩
  | queue action acted chain =>
    subst acted
    exact ⟨_, tier?_queue h action, .queue action rfl rfl⟩
  | none exchanged idle chain => exact ⟨t, by rw [chain, h], .none exchanged idle rfl⟩

/-- What every operation of a run keeps true of the weak tier holds of it at the end. -/
theorem tier_invariant {P : Session K → Tier K (Object String) → Prop} (ops : List (Operation K))
    (step : ∀ op ∈ ops, ∀ s t t', s.chain.tier? = some t → (s.next op).chain.tier? = some t' →
      s.TierEffect op t t' → P s t → P (s.next op) t')
    {s : Session K} {t : Tier K (Object String)} (ht : s.chain.tier? = some t) (h : P s t) :
    ∃ t', (ops.foldl next s).chain.tier? = some t' ∧ P (ops.foldl next s) t' := by
  induction ops generalizing s t with
  | nil => exact ⟨t, ht, h⟩
  | cons op ops ih =>
    obtain ⟨hop, hops⟩ := List.forall_mem_cons.mp step
    obtain ⟨t', ht', heffect⟩ := tierEffect ht op
    exact ih hops ht' (hop s t t' ht ht' heffect h)

end Session
end ResultCache
