import ResultCache.Proofs.Chain.Listing
import ResultCache.Proofs.Session.Tracing

/-! A cleared chain is as good as a new one. Whatever a program does afterwards, with the chain, its queue,
its layers or the slots, no reply and no trace tells whether the chain was cleared or stacked afresh. -/
namespace ResultCache.Session
open Event (traces)
variable {K : Type} [BEq K] [Hashable K]

/-- The second session is the first with other counts of calls. -/
inductive Alike (s : Session K) : Session K → Prop
  | mk {chain : Chain K (Object String)} (h : s.chain.Alike chain) : Alike s { s with chain }

theorem alike_eq_over : Alike (K := K) = Over Chain.Alike :=
  funext fun _ => funext fun _ => propext ⟨fun ⟨h⟩ => ⟨h⟩, fun ⟨h⟩ => ⟨h⟩⟩

variable {s s' : Session K}

theorem Alike.host (h : s.Alike s') : s.host = s'.host := by
  obtain ⟨-⟩ := h
  rfl

private theorem Alike.retune (h : s.Alike s') {x y : Option (Chain K (Object String))}
    (hxy : Option.Rel Chain.Alike x y) :
    (s.orElse .notApplicable (fun _ => .done) (x.map ((), ·))).Alike Alike
      (s'.orElse .notApplicable (fun _ => .done) (y.map ((), ·))) := by
  rw [alike_eq_over] at h ⊢
  exact h.retune hxy

private theorem Alike.unwrap (h : s.Alike s') : s.unwrap.Alike Alike s'.unwrap := by
  obtain @⟨chain, h⟩ := h
  obtain ⟨c, host, unwrapped⟩ := s
  have hinside := h.unwrap?
  rw [Session.unwrap, Session.unwrap]
  dsimp only at hinside ⊢
  generalize c.unwrap? = x at hinside ⊢
  generalize chain.unwrap? = y at hinside ⊢
  cases unwrapped with
  | true => exact ⟨⟨h⟩, rfl, rfl⟩
  | false =>
    cases hinside with
    | none => exact ⟨⟨h⟩, rfl, rfl⟩
    | some hinside => exact ⟨⟨hinside⟩, rfl, rfl⟩

/-- Every action gives the same reply and the same traces in both sessions. -/
theorem Alike.step (h : s.Alike s') (action : Action K) : (s.step action).Alike Alike (s'.step action) := by
  cases hlayer : action.onLayer with
  | false =>
    rw [alike_eq_over] at h ⊢
    exact h.step Chain.Alike.indistinct hlayer
  | true =>
    cases action with
    | setCapacity layer capacity =>
      obtain ⟨h⟩ := h
      exact Alike.retune ⟨h⟩ (h.setCapacity? layer capacity)
    | setPinCount layer pinCount =>
      obtain ⟨h⟩ := h
      exact Alike.retune ⟨h⟩ (h.setPinCount? layer pinCount)
    | unwrap => exact h.unwrap
    | _ => cases hlayer

/-- The replies of a run, each with the evictions and reclaimed values that it told of. -/
def observed (s : Session K) : List (Action K) → List (Reply K × List Event)
  | [] => []
  | action :: actions =>
    ((s.step action).answer, traces (s.step action).events) :: (s.step action).cache.observed actions

/-- What each action of a run leaves alike, the run leaves alike, also if one of the sessions is given the actions
in other words. -/
theorem observed_congr {R : Session K → Session K → Prop} (f : Action K → Action K) {actions : List (Action K)}
    (step : ∀ action ∈ actions, ∀ {s s'}, R s s' → (s.step (f action)).Alike R (s'.step action))
    (h : R s s') :
    s.observed (actions.map f) = s'.observed actions ∧
      R ((actions.map f).foldl (fun s action => (s.step action).cache) s)
        (actions.foldl (fun s action => (s.step action).cache) s') := by
  induction actions generalizing s s' with
  | nil => exact ⟨rfl, h⟩
  | cons action actions ih =>
    obtain ⟨hfirst, hothers⟩ := List.forall_mem_cons.mp step
    have hstep := hfirst h
    obtain ⟨hrest, hend⟩ := ih hothers hstep.cache
    rw [List.map_cons, observed, observed, hstep.answer, hstep.traces, hrest]
    exact ⟨rfl, hend⟩

theorem Alike.run (h : s.Alike s') (actions : List (Action K)) :
    s.observed actions = s'.observed actions ∧
      Alike (actions.foldl (fun s action => (s.step action).cache) s)
        (actions.foldl (fun s action => (s.step action).cache) s') := by
  have hrun := observed_congr id (fun action (_ : action ∈ actions) _ _ (h : Alike _ _) => h.step action) h
  rwa [List.map_id] at hrun

/-- In whatever state a chain is, clearing it leaves no value owned in the chain and the slots as they
were. From then on all replies and all traces are those of a chain stacked afresh from the same layers,
with their present capacities and number of pins, and the slots are the same. -/
theorem clear_restores_fresh (s : Session K) :
    let cleared := (s.step .clear).cache
    let fresh : Session K := { s with chain := .ofLayers s.chain.name s.chain.layers }
    (∀ o, cleared.chain.owners o = 0) ∧ cleared.host = s.host ∧
      ∀ actions, cleared.observed actions = fresh.observed actions ∧
        (actions.foldl (fun s action => (s.step action).cache) cleared).host =
          (actions.foldl (fun s action => (s.step action).cache) fresh).host := by
  intro cleared fresh
  have hchain : cleared.chain.Alike fresh.chain := s.chain.alike_clear s.host.inUse
  have halike : cleared.Alike fresh := ⟨hchain⟩
  refine ⟨fun o => ?_, rfl, fun actions => ?_⟩
  · rw [hchain.owners, Chain.owners_ofLayers]
  · exact (halike.run actions).imp_right Alike.host

end ResultCache.Session
