import ResultCache.Proofs.Chain.Draining
import ResultCache.Proofs.Session.Run

/-! A program that lets its queue be drained by the tier alone cannot tell when this happens. -/
namespace ResultCache
variable {K : Type}

/-- Whether an operation leaves it to the tier to take the reported keys from the queue. -/
def Operation.leavesQueue : Operation K → Bool
  | .queue .collect => true
  | .queue _ => false
  | _ => true

namespace Session
variable [BEq K] [Hashable K]

def stepLazily (s : Session K) (op : Operation K) : Step K := s.step op.action

/-- The step of a session in which every pass of the queue deletes the reported entries at once. -/
def stepEagerly (s : Session K) : Operation K → Step K
  | .queue .collect =>
    s.orElse .noQueue (fun keys => .count keys.length) (s.chain.collectEagerly? s.inUse)
  | op => s.step op.action

def results (step : Session K → Operation K → Step K) (s : Session K) :
    List (Operation K) → List (Reply K × Option (Exchange K (Object String)))
  | [] => []
  | op :: ops => ((step s op).answer, s.exchange? op) :: (step s op).cache.results step ops

structure Settles (lazy eager : Session K) : Prop where
  chain : lazy.chain.Settles eager.chain
  host : eager.host = lazy.host
  unwrapped : eager.unwrapped = lazy.unwrapped

variable [EquivBEq K] [LawfulHashable K]

private theorem Settles.collect {c d : Chain K (Object String)} (h : c.Settles d) (host : Host String)
    (unwrapped : Bool) :
    let lazy := stepLazily ⟨c, host, unwrapped⟩ (.queue .collect)
    let eager := stepEagerly ⟨d, host, unwrapped⟩ (.queue .collect)
    lazy.answer = eager.answer ∧ Settles lazy.cache eager.cache := by
  intro lazy eager
  have hl : lazy = orElse ⟨c, host, unwrapped⟩ .noQueue (fun keys => .count keys.length)
    (c.collect? host.inUse) := rfl
  have he : eager = orElse ⟨d, host, unwrapped⟩ .noQueue (fun keys => .count keys.length)
    (d.collectEagerly? host.inUse) := rfl
  rw [hl, he]
  rcases h.collect host.inUse with ⟨hc, hd⟩ | ⟨keys, c', d', hc, hd, hs⟩
  · rw [hc, hd]
    exact ⟨rfl, h, rfl, rfl⟩
  · rw [hc, hd]
    exact ⟨rfl, hs, rfl, rfl⟩

private theorem Settles.put {c d : Chain K (Object String)} (h : c.Settles d) (host : Host String)
    (unwrapped : Bool) (k : K) (value : Source String) :
    let lazy := Session.put ⟨c, host, unwrapped⟩ k value
    let eager := Session.put ⟨d, host, unwrapped⟩ k value
    lazy.answer = eager.answer ∧ Settles lazy.cache eager.cache := by
  dsimp only
  rw [Session.put, Session.put]
  dsimp only
  rcases host.take? value with _ | ⟨object, taken⟩
  · exact ⟨rfl, h, rfl, rfl⟩
  · exact ⟨rfl, (Chain.settles_simulation taken.inUse).put h k object, rfl, rfl⟩

/-- One operation has the same result in both sessions and leaves them alike. -/
theorem Settles.step {lazy eager : Session K} (h : Settles lazy eager) {op : Operation K}
    (hop : op.leavesQueue = true) :
    (lazy.stepLazily op).answer = (eager.stepEagerly op).answer ∧
      lazy.exchange? op = eager.exchange? op ∧
      Settles (lazy.stepLazily op).cache (eager.stepEagerly op).cache := by
  obtain ⟨c, host', unwrapped'⟩ := lazy
  obtain ⟨d, host, unwrapped⟩ := eager
  obtain ⟨hc, hh, hu⟩ := h
  dsimp only at hc hh hu
  subst hh hu
  have law := Chain.settles_simulation (K := K) host.inUse
  cases op with
  | slot action =>
    have howners : (c.owners ·) = (d.owners ·) := funext hc.owners
    have hact : host.act (K := K) (c.owners ·) action = host.act (d.owners ·) action := by rw [howners]
    exact ⟨congrArg Prod.snd hact, rfl, hc, (congrArg Prod.fst hact).symm, rfl⟩
  | queue action =>
    cases action with
    | collect =>
      obtain ⟨ha, hs⟩ := Settles.collect hc host unwrapped
      exact ⟨ha, rfl, hs⟩
    | poll => cases hop
    | drain => cases hop
    | unregister key keep => cases hop
    | clear => cases hop
  | put key value =>
    obtain ⟨ha, hs⟩ := Settles.put hc host unwrapped key value
    exact ⟨ha, rfl, hs⟩
  | get key keep =>
    obtain ⟨hs, ha⟩ := law.get hc key
    exact ⟨congrArg (fun found : Option (Object String) => Reply.found (found.map _)) ha,
      congrArg (fun found => some (Exchange.get key found)) ha, hs,
      congrArg (host.keep keep) ha.symm, rfl⟩
  | remove key keep =>
    obtain ⟨hs, ha⟩ := law.remove hc key
    exact ⟨congrArg (fun found : Option (Object String) => Reply.found (found.map _)) ha,
      congrArg (fun found => some (Exchange.remove key found)) ha, hs,
      congrArg (host.keep keep) ha.symm, rfl⟩
  | size =>
    obtain ⟨hs, ha⟩ := law.size hc
    exact ⟨congrArg Reply.count ha, congrArg (fun n => some (Exchange.size n)) ha, hs, rfl, rfl⟩
  | clear => exact ⟨rfl, rfl, law.clear hc, rfl, rfl⟩

theorem Settles.run {lazy eager : Session K} (h : Settles lazy eager) {ops : List (Operation K)}
    (hops : ∀ op ∈ ops, op.leavesQueue = true) :
    lazy.results stepLazily ops = eager.results stepEagerly ops ∧
      Settles (ops.foldl next lazy) (ops.foldl (fun s op => (s.stepEagerly op).cache) eager) := by
  induction ops generalizing lazy eager with
  | nil => exact ⟨rfl, h⟩
  | cons op ops ih =>
    obtain ⟨hop, hops⟩ := List.forall_mem_cons.mp hops
    obtain ⟨hanswer, hexchange, hs⟩ := h.step hop
    obtain ⟨hresults, hend⟩ := ih hs hops
    rw [results, results, hanswer, hexchange, hresults]
    exact ⟨rfl, hend⟩

/-- As long as the program itself takes no key from the queue, the results of a run are those of a run
in which reclaimed entries are deleted at once, with no layer told of it. Wherever such a run gets to,
the size is the number of keys that a lookup would find, and no lookup meets a handle whose value is
gone. -/
theorem draining_unobservable (name : String) (layers : List Layer) (ops : List (Operation K))
    (hops : ∀ op ∈ ops, op.leavesQueue = true) :
    let s : Session K := ops.foldl next (start name layers)
    (start name layers).results stepLazily ops = (start name layers).results stepEagerly ops ∧
      (∃ keys : List K, keys.Pairwise (fun k l => (k == l) = false) ∧
        (∀ k, (s.chain.get s.inUse k).answer.isSome = keys.contains k) ∧
        (s.chain.size s.inUse).answer = keys.length) ∧
      ∀ tier, s.chain.tier? = some tier → ∀ k handle,
        (tier.drain.cache.under.get () k).answer = some handle →
          tier.drain.cache.isAlive s.inUse handle.referent = true := by
  intro s
  have hstart : Settles (start name layers : Session K) (start name layers) :=
    ⟨.ofLayers name layers, rfl, rfl⟩
  obtain ⟨hresults, hend⟩ := hstart.run hops
  exact ⟨hresults, hend.chain.size_eq s.inUse, fun _ ht _ _ hg => hend.chain.isAlive s.inUse ht hg⟩

/-- A key is reclaimed, put again before anything is drained, and reclaimed once more, between two
recency layers that go on tracking it. -/
theorem draining_unobservable_of_reput :
    let ops : List (Operation Nat) := [.put 1 (.fresh "a"), .queue .collect, .put 1 (.fresh "b"),
      .get 1 (some "held"), .slot (.release "held"), .queue .collect, .get 1 none, .size]
    let s := start "rows" [.lru 2, .weak 1, .lru 3]
    (∀ op ∈ ops, op.leavesQueue = true) ∧ s.results stepLazily ops = s.results stepEagerly ops := by
  intro ops s
  have hops : ∀ op ∈ ops, op.leavesQueue = true := by decide
  exact ⟨hops, (draining_unobservable "rows" [.lru 2, .weak 1, .lru 3] ops hops).1⟩

end Session
end ResultCache
