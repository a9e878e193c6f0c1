import ResultCache.Proofs.Session.Freshness
import ResultCache.Proofs.Session.Step

/-! The objects of a run. An object that gets into a slot was just made or was found in the chain, and
one that gets into the chain was just made or came from a slot; so all of them have been made. -/
namespace ResultCache.Session
variable {K : Type} [BEq K] [Hashable K]

/-- An object that an operation can find in the chain: a call finds what is stored, and the removal of a
registration finds what was registered. -/
inductive Finds (s : Session K) (op : Operation K) (o : Object String) : Prop
  | stored (e : Exchange K (Object String)) (k : K) (exchanged : s.exchange? op = some e)
    (stored : s.chain.stored k = some o)
  | registered (t : Tier K (Object String)) (k : K) (tier : s.chain.tier? = some t)
    (registered : t.queue.registered.get? k = some o)

/-- What an operation does to the program's slots. -/
inductive HostEffect (s : Session K) (op : Operation K) : Prop
  | same (host : (s.next op).host = s.host)
  | held (slot content : String) (host : (s.next op).host = s.host.hold slot content)
  | released (slot : String) (host : (s.next op).host = s.host.release slot)
  | took (source : Source String) (key : K) (o : Object String)
    (taken : s.host.take? source = some (o, (s.next op).host)) (exchanged : s.exchange? op = some (.put key o))
  | kept (slot : Option String) (found : Option (Object String)) (finds : ∀ o, found = some o → s.Finds op o)
    (host : (s.next op).host = s.host.keep slot found)

private theorem host_orElse {α : Type} (s : Session K) (otherwise : Reply K) (reply : α → Reply K)
    (result : Option (α × Chain K (Object String))) :
    (s.orElse otherwise reply result).cache.host = s.host := by
  cases result <;> rfl

private theorem hostEffect_queue (s : Session K) (action : QueueAction K) :
    s.HostEffect (.queue action) := by
  cases action with
  | collect => exact .same (host_orElse s _ _ _)
  | poll => exact .same (host_orElse s _ _ _)
  | drain => exact .same (host_orElse s _ _ _)
  | unregister key keep =>
    obtain ⟨chain, host, unwrapped⟩ := s
    cases chain with
    | strong stack => exact .same rfl
    | weak stack =>
      exact .kept keep (stack.inner.queue.registered.get? key)
        (fun o ho => .registered stack.inner key rfl ho) rfl
  | clear => exact .same (host_orElse s _ _ _)

private theorem host_put {s : Session K} {source : Source String} {taken : Object String × Host String}
    (ht : s.host.take? source = some taken) (key : K) : (s.next (.put key source)).host = taken.2 := by
  change (s.put key source).cache.host = taken.2
  rw [put, ht]
  rfl

theorem inUse_put (s : Session K) (key : K) (source : Source String) :
    (s.next (.put key source)).inUse = s.inUse := by
  cases ht : s.host.take? source with
  | none =>
    change (s.put key source).cache.host.inUse = s.inUse
    rw [put, ht]
    rfl
  | some taken =>
    change (s.next (.put key source)).host.inUse = s.host.inUse
    rw [host_put ht]
    exact funext fun object => congrArg (Slots.inUse · object) (Host.take?_cases ht).1

private theorem hostEffect_put (s : Session K) (key : K) (source : Source String) :
    s.HostEffect (.put key source) := by
  cases ht : s.host.take? source with
  | none =>
    refine .same ?_
    change (s.put key source).cache.host = s.host
    rw [put, ht]
    rfl
  | some taken =>
    refine .took source key taken.1 ?_ (congrArg (Option.map _) ht)
    rw [ht, host_put ht]

/-- An object put into the chain comes from a slot, or is the one just made. -/
theorem put_next {s : Session K} {op : Operation K} {k : K} {o : Object String}
    (h : s.exchange? op = some (.put k o)) :
    s.inUse o = true ∨ (o.id = s.host.made ∧ s.host.made < (s.next op).host.made) := by
  cases op with
  | slot action => cases h
  | queue action => cases h
  | put key source =>
    obtain ⟨taken, ht, he⟩ := Option.map_eq_some_iff.mp h
    cases he
    rw [host_put ht]
    rcases (Host.take?_cases ht).2 with ⟨hu, -⟩ | ⟨hid, hmade⟩
    · exact .inl hu
    · exact .inr ⟨hid, by omega⟩
  | get key keep => cases h
  | remove key keep => cases h
  | size => cases h
  | clear => cases h

theorem inUse_collect (s : Session K) : (s.next (.queue .collect)).inUse = s.inUse :=
  congrArg Host.inUse (host_orElse s _ _ _)

/-- A pass is the one work on a queue that asks about the slots, and it leaves them as they are. -/
theorem act_next (s : Session K) (action : QueueAction K) (t : Tier K (Object String)) :
    t.act (s.next (.queue action)).inUse action = t.act s.inUse action := by
  cases action with
  | collect => rw [inUse_collect]
  | poll => rfl
  | drain => rfl
  | unregister key keep => rfl
  | clear => rfl

variable [EquivBEq K] [LawfulHashable K]

theorem hostEffect (s : Session K) (op : Operation K) : s.HostEffect op := by
  have law := Chain.faithful (K := K) s.inUse
  cases op with
  | slot action =>
    cases action with
    | hold slot content => exact .held slot content rfl
    | release slot => exact .released slot rfl
    | owners slot =>
      refine .same ?_
      change (s.host.act (K := K) (s.chain.owners ·) (.owners slot)).1 = s.host
      rw [Host.act]
      split <;> rfl
    | same slot other =>
      refine .same ?_
      change (s.host.act (K := K) (s.chain.owners ·) (.same slot other)).1 = s.host
      rw [Host.act]
      split <;> rfl
  | queue action => exact hostEffect_queue s action
  | put key source => exact hostEffect_put s key source
  | get key keep =>
    exact .kept keep _ (fun o ho => .stored _ key rfl (law.get_some ho BEq.rfl)) rfl
  | remove key keep =>
    exact .kept keep _ (fun o ho => .stored _ key rfl (law.remove_some ho BEq.rfl)) rfl
  | size => exact .same rfl
  | clear => exact .same rfl

theorem made_le_next (s : Session K) (op : Operation K) : s.host.made ≤ (s.next op).host.made := by
  cases s.hostEffect op with
  | same host => exact Nat.le_of_eq (congrArg Host.made host).symm
  | held slot content host =>
    rw [host]
    exact Nat.le_succ s.host.made
  | released slot host => exact Nat.le_of_eq (congrArg Host.made host).symm
  | took source key o taken exchanged =>
    have := (Host.take?_cases taken).2
    omega
  | kept slot found finds host =>
    have hmade : (s.next op).host.made = s.host.made :=
      (congrArg Host.made host).trans (Host.made_keep slot found)
    omega

/-- An object in a slot was there before, or is the one just made, or was found by the operation. -/
theorem inUse_next {s : Session K} {op : Operation K} {o : Object String}
    (h : (s.next op).inUse o = true) :
    s.inUse o = true ∨ (o.id = s.host.made ∧ s.host.made < (s.next op).host.made) ∨ s.Finds op o := by
  rw [inUse] at h
  cases s.hostEffect op with
  | same host =>
    rw [host] at h
    exact .inl h
  | held slot content host =>
    rw [host] at h ⊢
    rcases Slots.inUse_of_hold h with rfl | hold
    · exact .inr (.inl ⟨rfl, Nat.lt_succ_self _⟩)
    · exact .inl hold
  | released slot host =>
    rw [host] at h
    exact .inl (Slots.inUse_of_release h)
  | took source key o' taken exchanged =>
    rw [Host.inUse, (Host.take?_cases taken).1] at h
    exact .inl h
  | kept slot found finds host =>
    rw [host] at h
    rcases Host.inUse_of_keep h with hold | hfound
    · exact .inl hold
    · exact .inr (.inr (finds o hfound))

end ResultCache.Session
