import ResultCache.Proofs.Chain.Unlogged
import ResultCache.Proofs.Chain.Visits
import ResultCache.Proofs.Session.Clearing
import ResultCache.Proofs.Session.Step

/-! Logging layers in a chain that a program works with. The program cannot tell whether they are there, and what
they count is what they receive. -/
namespace ResultCache

def Action.renumbered {K : Type} (number : Nat → Nat) : Action K → Action K
  | .setCapacity layer capacity => .setCapacity (number layer) capacity
  | .setPinCount layer pinCount => .setPinCount (number layer) pinCount
  | action => action

namespace Session
variable {K : Type} [BEq K] [Hashable K]

/-- The actions on this session if its layers are numbered without those that log. -/
def placed (s : Session K) (actions : List (Action K)) : List (Action K) :=
  actions.map (·.renumbered s.chain.place)

private theorem step_unlogged {logs : List Bool} {s s' : Session K} (h : s.Over (Chain.Unlogged logs) s')
    {action : Action K} (hkept : action ≠ .unwrap) :
    (s.step (action.renumbered (Layer.place logs))).Alike (Over (Chain.Unlogged logs)) (s'.step action) := by
  have hother : action.onLayer = false → action.renumbered (Layer.place logs) = action →
      (s.step (action.renumbered (Layer.place logs))).Alike (Over (Chain.Unlogged logs)) (s'.step action) := by
    intro hwhole hsame
    rw [hsame]
    exact h.step (Chain.Unlogged.indistinct logs) hwhole
  cases action with
  | setCapacity layer capacity =>
    obtain ⟨h⟩ := h
    exact Over.retune ⟨h⟩ (h.setCapacity? layer capacity)
  | setPinCount layer pinCount =>
    obtain ⟨h⟩ := h
    exact Over.retune ⟨h⟩ (h.setPinCount? layer pinCount)
  | unwrap => exact (hkept rfl).elim
  | _ => exact hother rfl rfl

private theorem observed_unlogged (name : String) (layers : List Layer) {actions : List (Action K)}
    (hkept : .unwrap ∉ actions) :
    let logged : Session K := start name layers
    let plain : Session K := start name (layers.filter (· ≠ .logging))
    logged.observed (logged.placed actions) = plain.observed actions ∧
      ((logged.placed actions).foldl (fun s action => (s.step action).cache) logged).host =
        (actions.foldl (fun s action => (s.step action).cache) plain).host := by
  intro logged plain
  have hstart : logged.Over (Chain.Unlogged _) plain := ⟨.ofLayers name layers⟩
  obtain ⟨hobserved, hend⟩ := observed_congr _
    (fun action ha _ _ h => step_unlogged h fun hunwrap => hkept (hunwrap ▸ ha)) hstart
  exact ⟨hobserved, hend.host⟩

def filling (host : Host String) : List (K × String) → List (Request K (Object String))
  | [] => []
  | (key, content) :: entries => .put key (host.make content).1 :: filling (host.make content).2 entries

def asked (s : Session K) : Action K → List (Request K (Object String))
  | .put key value => (s.host.take? value).toList.map fun taken => .put key taken.1
  | .get key _ => [.get key]
  | .remove key _ => [.remove key]
  | .clear => [.clear]
  | .size => [.size]
  | .query key content => .get key ::
      if (s.chain.get s.inUse key).answer.isSome then [] else [.put key (s.host.make content).1]
  | .fill entries => filling s.host entries
  | .scan keys => keys.map fun key => .get key.2
  | _ => []

def visits (s : Session K) (action : Action K) : List (List (Visit K)) := s.chain.visits s.inUse (s.asked action)

/-- The calls that one logging layer receives in a run. Logging layers are counted from the outside, from zero. -/
def received (layer : Nat) (s : Session K) : List (Action K) → List (Visit K)
  | [] => []
  | action :: actions => (s.visits action)[layer]?.getD [] ++ (s.step action).cache.received layer actions

private theorem asked_action (s : Session K) (op : Operation K) :
    s.asked op.action = (s.exchange? op).toList.map Exchange.request := by
  cases op with
  | put key value =>
    change (s.host.take? value).toList.map _ = _
    rw [exchange?]
    cases s.host.take? value <;> rfl
  | _ => rfl

private theorem stats_idle (s : Session K) {action : Action K} (hidle : s.asked action = [])
    (hsame : (s.step action).cache.chain.stats = s.chain.stats) :
    (s.step action).cache.chain.stats = List.zipWith Stats.plus s.chain.stats (s.visits action) := by
  rw [hsame, visits, hidle, ← Chain.stats_runAll]
  rfl

private theorem stats_next (s : Session K) (op : Operation K) :
    (s.next op).chain.stats = List.zipWith Stats.plus s.chain.stats (s.visits op.action) := by
  cases s.effect op with
  | request e exchanged chain =>
    rw [chain, visits, asked_action, exchanged, ← Chain.stats_runAll]
    rfl
  | queue action acted chain =>
    refine s.stats_idle (by rw [acted]; rfl) ?_
    exact (congrArg Chain.stats chain).trans (Chain.stats_mapTier _ fun t => t.under_act s.inUse action)
  | none exchanged idle chain =>
    exact s.stats_idle (by rw [asked_action, exchanged]; rfl) (congrArg Chain.stats chain)

private theorem chain_query (s : Session K) (key : K) (content : String) :
    (s.query key content).cache.chain =
      (Request.runAll s.inUse s.chain (s.asked (.query key content))).cache := by
  rw [query, asked]
  dsimp only
  have hfound : (s.chain.get s.host.inUse key).answer = (s.chain.get s.inUse key).answer := rfl
  rw [hfound]
  cases (s.chain.get s.inUse key).answer <;> rfl

private theorem chain_fill (s : Session K) (entries : List (K × String)) :
    (s.fill entries).cache.chain = (Request.runAll s.inUse s.chain (filling s.host entries)).cache := by
  induction entries generalizing s with
  | nil => rfl
  | cons entry entries ih => exact ih (s.put entry.1 (.fresh entry.2)).cache

private theorem chain_lookUpAll (s : Session K) (keys : List (Nat × K)) :
    (s.lookUpAll keys).cache.chain =
      (Request.runAll s.inUse s.chain (keys.map fun key => .get key.2 : List (Request K (Object String)))).cache := by
  induction keys generalizing s with
  | nil => rfl
  | cons key keys ih => exact ih ⟨(s.chain.get s.inUse key.2).cache, s.host, s.unwrapped⟩

private theorem stats_orElse (s : Session K) {result : Option (Chain K (Object String))}
    (h : ∀ chain, result = some chain → chain.stats = s.chain.stats) :
    (s.orElse .notApplicable (fun _ => .done) (result.map ((), ·))).cache.chain.stats = s.chain.stats := by
  cases result with
  | none => rfl
  | some chain => exact h chain rfl

private theorem stats_unwrap (s : Session K) : s.unwrap.cache.chain.stats = s.chain.stats := by
  rw [unwrap]
  split
  · next chain hunwrapped hchain => exact Chain.stats_unwrap? hchain
  · rfl

private theorem stats_step (s : Session K) (action : Action K) :
    (s.step action).cache.chain.stats = List.zipWith Stats.plus s.chain.stats (s.visits action) := by
  -- either the action is some requests and no more, or it asks nothing and leaves the counts alone
  have hasked : (s.step action).cache.chain = (Request.runAll s.inUse s.chain (s.asked action)).cache →
      (s.step action).cache.chain.stats = List.zipWith Stats.plus s.chain.stats (s.visits action) :=
    fun hchain => by rw [hchain, Chain.stats_runAll, visits]
  cases action with
  | slot action => exact s.stats_next (.slot action)
  | queue action => exact s.stats_next (.queue action)
  | put key value => exact s.stats_next (.put key value)
  | get key keep => exact s.stats_next (.get key keep)
  | remove key keep => exact s.stats_next (.remove key keep)
  | clear => exact s.stats_next .clear
  | size => exact s.stats_next .size
  | query key content => exact hasked (s.chain_query key content)
  | fill entries => exact hasked (s.chain_fill entries)
  | scan keys => exact hasked (s.chain_lookUpAll keys)
  | setCapacity layer capacity => exact s.stats_idle rfl (s.stats_orElse fun _ => Chain.stats_setCapacity?)
  | setPinCount layer pinCount => exact s.stats_idle rfl (s.stats_orElse fun _ => Chain.stats_setPinCount?)
  | unwrap => exact s.stats_idle rfl s.stats_unwrap
  | name => exact s.stats_idle rfl rfl
  | observe => exact s.stats_idle rfl rfl

private theorem stats_run (s : Session K) (actions : List (Action K)) (layer : Nat) :
    (actions.foldl (fun s action => (s.step action).cache) s).chain.stats[layer]? =
      s.chain.stats[layer]?.map (·.plus (s.received layer actions)) := by
  induction actions generalizing s with
  | nil => exact Option.map_id'.symm
  | cons action actions ih =>
    have hlength : (s.visits action).length = s.chain.stats.length := s.chain.length_visits s.inUse _
    rw [List.foldl_cons, ih, stats_step, List.getElem?_zipWith, received]
    cases hs : s.chain.stats[layer]? with
    | none => rfl
    | some stats =>
      have hlt : layer < (s.visits action).length := by
        rw [hlength]
        exact (List.getElem?_eq_some_iff.mp hs).1
      rw [List.getElem?_eq_getElem hlt]
      exact congrArg some (stats.plus_append _ _).symm

private theorem length_stats_run (s : Session K) (actions : List (Action K)) :
    (actions.foldl (fun s action => (s.step action).cache) s).chain.stats.length = s.chain.stats.length := by
  have hnone : ∀ layer, (actions.foldl (fun s action => (s.step action).cache) s).chain.stats.length ≤ layer ↔
      s.chain.stats.length ≤ layer := by
    intro layer
    rw [← List.getElem?_eq_none_iff, ← List.getElem?_eq_none_iff, stats_run, Option.map_eq_none_iff]
  exact Nat.le_antisymm ((hnone _).mpr (Nat.le_refl _)) ((hnone _).mp (Nat.le_refl _))

/-- Logging layers at any places of a chain change nothing that a program can see: the replies to all its actions,
on the chain, its queue, its layers or the slots, the evictions and reclaimed values told of on the way, and what
the slots hold are those of a chain with other logging layers or none. For this the other layers are numbered
without those that log, and none is taken off. Wherever a run gets to, each logging layer has counted the lookups,
hits, puts and removals that it received in the whole run, from the program or from the layers around it and across
all clears, so hits are never more than requests. -/
theorem logging_layers_transparent (name : String) (layers : List Layer) (actions : List (Action K)) :
    (.unwrap ∉ actions → ∀ layers' : List Layer,
      layers'.filter (· ≠ .logging) = layers.filter (· ≠ .logging) →
        let one : Session K := start name layers
        let other : Session K := start name layers'
        other.observed (other.placed actions) = one.observed (one.placed actions) ∧
          ((other.placed actions).foldl (fun s action => (s.step action).cache) other).host =
            ((one.placed actions).foldl (fun s action => (s.step action).cache) one).host) ∧
    let s := actions.foldl (fun s action => (s.step action).cache) (start name layers)
    s.chain.stats.length = layers.count .logging ∧
      ∀ layer stats, s.chain.stats[layer]? = some stats →
        let visits := (start name layers : Session K).received layer actions
        stats.requests = visits.countP Visit.isGet ∧ stats.hits = visits.countP Visit.isHit ∧
          stats.puts = visits.countP Visit.isPut ∧ stats.removes = visits.countP Visit.isRemove ∧
          stats.hits ≤ stats.requests ∧ stats.misses + stats.hits = stats.requests := by
  refine ⟨fun hkept layers' hsame => ?_, ?_, ?_⟩
  · obtain ⟨hobserved, hhost⟩ := observed_unlogged name layers hkept
    obtain ⟨hobserved', hhost'⟩ := observed_unlogged name layers' hkept
    dsimp only
    rw [hobserved, hobserved', hhost, hhost', hsame]
    exact ⟨rfl, rfl⟩
  · rw [length_stats_run, start, Chain.stats_ofLayers, List.length_replicate]
  · intro layer stats hstats visits
    rw [stats_run, start, Chain.stats_ofLayers] at hstats
    obtain ⟨fresh, hfresh, rfl⟩ := Option.map_eq_some_iff.mp hstats
    cases List.eq_of_mem_replicate (List.mem_of_getElem? hfresh)
    have hle := Visit.countP_isHit_le visits
    rw [Stats.plus_fresh]
    exact ⟨rfl, rfl, rfl, rfl, hle, Nat.sub_add_cancel hle⟩

/-- Logging layers beneath a weak one and around all others are not seen, although the recency layer has another
number with them, and the outer one has counted a put and a lookup. -/
theorem logging_layers_transparent_of_two :
    let plain : Session Nat := start "rows" [.weak 1, .lru 1]
    let logged : Session Nat := start "rows" [.logging, .weak 1, .lru 1, .logging]
    plain.observed [.setCapacity 2 5, .put 1 (.fresh "x"), .get 1 (some "h"), .clear] =
        logged.observed [.setCapacity 3 5, .put 1 (.fresh "x"), .get 1 (some "h"), .clear] ∧
      ∃ outer inner, ([.setCapacity 2 5, .put 1 (.fresh "x"), .get 1 (some "h"), .clear].foldl
          (fun s action => (s.step action).cache) logged).chain.stats = [outer, inner] ∧
        outer.requests = 1 ∧ outer.puts = 1 ∧ outer.misses + outer.hits = 1 := by
  intro plain logged
  have hkept : (.unwrap : Action Nat) ∉
      ([.setCapacity 2 5, .put 1 (.fresh "x"), .get 1 (some "h"), .clear] : List (Action Nat)) := by simp
  obtain ⟨htransparent, hlength, hlayers⟩ := logging_layers_transparent "rows"
    [.logging, .weak 1, .lru 1, .logging] [.setCapacity 2 5, .put 1 (.fresh "x"), .get 1 (some "h"), .clear]
  obtain ⟨outer, inner, hstats⟩ := List.length_eq_two.mp hlength
  obtain ⟨hrequests, -, hputs, -, -, htotal⟩ := hlayers 0 outer (by rw [hstats]; rfl)
  have hsame : ([.weak 1, .lru 1] : List Layer).filter (· ≠ .logging) =
      [.logging, .weak 1, .lru 1, .logging].filter (· ≠ .logging) := by decide
  exact ⟨(htransparent hkept [.weak 1, .lru 1] hsame).1, outer, inner, hstats, hrequests, hputs,
    htotal.trans hrequests⟩

end Session
end ResultCache
