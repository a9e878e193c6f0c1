import ResultCache.Proofs.Chain.Tracing
import ResultCache.Session

/-! Sessions with chains that cannot be told apart. Whatever is done with the chain as a whole, with its queue or
with the slots gives the same reply and the same traces in both. -/
namespace ResultCache

def Action.onLayer {K : Type} : Action K → Bool
  | .setCapacity _ _ => true
  | .setPinCount _ _ => true
  | .unwrap => true
  | _ => false

namespace Session
open Event (traces_congr)
variable {K : Type} [BEq K] [Hashable K]

/-- The second session is the first with a related chain. -/
inductive Over (C : Chain K (Object String) → Chain K (Object String) → Prop) (s : Session K) : Session K → Prop
  | mk {chain : Chain K (Object String)} (h : C s.chain chain) : Over C s { s with chain }

namespace Over
variable {C : Chain K (Object String) → Chain K (Object String) → Prop} {s s' : Session K}

theorem host (h : s.Over C s') : s.host = s'.host := by
  obtain ⟨-⟩ := h
  rfl

private theorem quiet (h : s.Over C s') (reply : Reply K) :
    (s.quiet reply).Alike (Over C) (s'.quiet reply) := ⟨h, rfl, rfl⟩

private theorem withChain (h : s.Over C s') {α : Type} {call : Call K α}
    (hcall : ∀ inUse {c d}, C c d → (call inUse c).Alike C (call inUse d))
    (reply : α → Reply K) : (s.withChain call reply).Alike (Over C) (s'.withChain call reply) := by
  obtain ⟨h⟩ := h
  have hcalled := hcall s.host.inUse h
  exact ⟨⟨hcalled.cache⟩, congrArg reply hcalled.answer, hcalled.traces⟩

private theorem finding (h : s.Over C s') (keep : Option String)
    {call : Call K (Option (Object String))}
    (hcall : ∀ inUse {c d}, C c d → (call inUse c).Alike C (call inUse d)) :
    (s.finding keep call).Alike (Over C) (s'.finding keep call) := by
  obtain @⟨chain, h⟩ := h
  have hcalled := hcall s.host.inUse h
  rw [Session.finding, Session.finding]
  dsimp only
  generalize call s.host.inUse s.chain = called at hcalled ⊢
  generalize call s.host.inUse chain = called' at hcalled ⊢
  obtain ⟨c, found, events⟩ := called
  obtain ⟨c', _, events'⟩ := called'
  obtain ⟨hc, rfl, hevents⟩ := hcalled
  exact ⟨⟨hc⟩, rfl, hevents⟩

theorem orElse (h : s.Over C s') {α : Type} {x y : Option (α × Chain K (Object String))}
    (hxy : Option.Rel (fun x y => x.1 = y.1 ∧ C x.2 y.2) x y) (otherwise : Reply K)
    (reply : α → Reply K) : (s.orElse otherwise reply x).Alike (Over C) (s'.orElse otherwise reply y) := by
  obtain ⟨h⟩ := h
  cases hxy with
  | none => exact ⟨⟨h⟩, rfl, rfl⟩
  | some hsome => exact ⟨⟨hsome.2⟩, congrArg reply hsome.1, rfl⟩

/-- A layer is changed in both chains, or in none. -/
theorem retune (h : s.Over C s') {x y : Option (Chain K (Object String))} (hxy : Option.Rel C x y) :
    (s.orElse .notApplicable (fun _ => .done) (x.map ((), ·))).Alike (Over C)
      (s'.orElse .notApplicable (fun _ => .done) (y.map ((), ·))) := by
  refine h.orElse ?_ _ _
  exact rel_map hxy fun _ _ hcd => ⟨rfl, hcd⟩

variable (law : Chain.Indistinct C)
include law

private theorem put (h : s.Over C s') (key : K) (value : Source String) :
    (s.put key value).Alike (Over C) (s'.put key value) := by
  obtain @⟨chain, h⟩ := h
  rw [Session.put, Session.put]
  dsimp only
  cases s.host.take? value with
  | none => exact Over.quiet ⟨h⟩ .noSuchSlot
  | some taken =>
    have htaken : Over C { s with host := taken.2 } { s with chain, host := taken.2 } := ⟨h⟩
    exact htaken.withChain (fun inUse _ _ hc => (law.tracing inUse).put hc key taken.1) _

private theorem query (h : s.Over C s') (key : K) (content : String) :
    (s.query key content).Alike (Over C) (s'.query key content) := by
  obtain @⟨chain, h⟩ := h
  have hget : (s.chain.get s.host.inUse key).Alike C (chain.get s.host.inUse key) :=
    (law.tracing s.host.inUse).get h key
  rw [Session.query, Session.query]
  dsimp only
  generalize s.chain.get s.host.inUse key = got at hget ⊢
  generalize chain.get s.host.inUse key = got' at hget ⊢
  obtain ⟨c, found, events⟩ := got
  obtain ⟨c', _, events'⟩ := got'
  obtain ⟨hc, rfl, hevents⟩ := hget
  cases found with
  | some object => exact ⟨⟨hc⟩, rfl, hevents⟩
  | none =>
    have hmade : Over C ⟨c, (s.host.make content).2, s.unwrapped⟩ ⟨c', (s.host.make content).2, s.unwrapped⟩ :=
      ⟨hc⟩
    refine Outcome.Alike.after ?_ hevents
    exact hmade.withChain (fun inUse _ _ hd => (law.tracing inUse).put hd key _) _

private theorem fill (h : s.Over C s') (entries : List (K × String)) :
    (s.fill entries).Alike (Over C) (s'.fill entries) := by
  induction entries generalizing s s' with
  | nil => exact h.quiet .done
  | cons entry entries ih =>
    have hput := h.put law entry.1 (.fresh entry.2)
    exact (ih hput.cache).after hput.traces

private theorem lookUpAll (h : s.Over C s') (keys : List (Nat × K)) :
    (s.lookUpAll keys).Alike (Over C) (s'.lookUpAll keys) := by
  induction keys generalizing s s' with
  | nil => exact ⟨h, rfl, rfl⟩
  | cons key keys ih =>
    obtain @⟨chain, h⟩ := h
    have hget : (s.chain.get s.host.inUse key.2).Alike C (chain.get s.host.inUse key.2) :=
      (law.tracing s.host.inUse).get h key.2
    have hrest := ih (s := ⟨(s.chain.get s.host.inUse key.2).cache, s.host, s.unwrapped⟩) ⟨hget.cache⟩
    refine ⟨hrest.cache, ?_, traces_congr hget.traces hrest.traces⟩
    rw [Session.lookUpAll, Session.lookUpAll]
    dsimp only
    rw [hget.answer, hrest.answer]

private theorem queueAct (h : s.Over C s') (action : QueueAction K) :
    (s.queueAct action).Alike (Over C) (s'.queueAct action) := by
  obtain @⟨chain, h⟩ := h
  cases action with
  | collect => exact Over.orElse ⟨h⟩ (law.collect? h s.host.inUse) _ _
  | poll => exact Over.orElse ⟨h⟩ (law.onQueue? h _) _ _
  | drain => exact Over.orElse ⟨h⟩ (law.onQueue? h _) _ _
  | unregister key keep =>
    have hunregistered := law.onQueue? h (·.unregister key)
    rw [Session.queueAct, Session.queueAct]
    dsimp only
    generalize s.chain.onQueue? (·.unregister key) = x at hunregistered ⊢
    generalize chain.onQueue? (·.unregister key) = y at hunregistered ⊢
    cases hunregistered with
    | none => exact Over.quiet ⟨h⟩ .noQueue
    | @some x y hsome =>
      obtain ⟨object, c⟩ := x
      obtain ⟨_, d⟩ := y
      obtain ⟨rfl, hc⟩ := hsome
      have hacted : Over C { s with chain := c } { s with chain := d } := ⟨hc⟩
      exact hacted.finding keep fun _ _ _ hd => ⟨hd, rfl, rfl⟩
  | clear => exact Over.orElse ⟨h⟩ (law.onQueue? h _) _ _

/-- An action that is not about one layer gives the same reply and the same traces in both sessions. -/
theorem step (h : s.Over C s') {action : Action K} (hwhole : action.onLayer = false) :
    (s.step action).Alike (Over C) (s'.step action) := by
  cases action with
  | slot action =>
    obtain @⟨chain, h⟩ := h
    have howners : (chain.owners ·) = (s.chain.owners ·) := funext fun v => (law.owners h v).symm
    rw [Session.step, Session.step]
    dsimp only
    rw [howners]
    exact ⟨⟨h⟩, rfl, rfl⟩
  | queue action => exact h.queueAct law action
  | put key value => exact h.put law key value
  | get key keep => exact h.finding keep fun inUse _ _ hc => (law.tracing inUse).get hc key
  | remove key keep => exact h.finding keep fun inUse _ _ hc => (law.tracing inUse).remove hc key
  | clear => exact h.withChain (fun inUse _ _ hc => (law.tracing inUse).clear hc) fun _ => .done
  | size => exact h.withChain (fun inUse _ _ hc => (law.tracing inUse).size hc) _
  | name =>
    obtain ⟨h⟩ := h
    exact ⟨⟨h⟩, congrArg Reply.name (law.name h), rfl⟩
  | query key content => exact h.query law key content
  | fill entries => exact h.fill law entries
  | scan keys =>
    have hfound := h.lookUpAll law keys
    refine ⟨hfound.cache, ?_, hfound.traces⟩
    exact congrArg (fun numbers => Reply.tally numbers.length numbers.head? numbers.getLast?) hfound.answer
  | setCapacity layer capacity => cases hwhole
  | setPinCount layer pinCount => cases hwhole
  | unwrap => cases hwhole
  | observe => exact h.quiet .done

end Over
end Session
end ResultCache
