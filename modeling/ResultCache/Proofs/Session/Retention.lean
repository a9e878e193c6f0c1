import ResultCache.Proofs.Chain.Retention
import ResultCache.Proofs.Recency.Retention
import ResultCache.Proofs.Session.Objects

/-! How long a program may count on an object it has put. The object is found again as long as no call
ends the put, fewer other keys than any recency layer has places for are used, and every pass of the queue
finds another owner. -/
namespace ResultCache

namespace Exchange
variable {K V : Type}

def touched? : Exchange K V → Option K
  | put key _ => some key
  | get key _ => some key
  | _ => none

/-- The keys other than a given one that puts and lookups name, each once. -/
def rivals [BEq K] (key : K) (log : List (Exchange K V)) : List K :=
  ((log.filterMap touched?).filter fun k => !(k == key)).eraseDups

theorem touched_or_rival [BEq K] [EquivBEq K] {key k : K} {log : List (Exchange K V)} {e : Exchange K V}
    (he : e ∈ log) (hk : k ∈ e.touched?) : (k == key) = true ∨ (rivals key log).contains k = true := by
  by_cases hkey : (k == key) = true
  · exact .inl hkey
  · refine .inr ?_
    rw [rivals, Recency.contains_eraseDups]
    have hm : k ∈ (log.filterMap touched?).filter fun k => !(k == key) :=
      List.mem_filter.mpr ⟨List.mem_filterMap.mpr ⟨e, he, hk⟩, by simpa using hkey⟩
    exact List.contains_iff_exists_mem_beq.mpr ⟨k, hm, BEq.rfl⟩

end Exchange

/-- Whether an operation leaves the registration under a key to the cache. -/
def Operation.spares {K : Type} [BEq K] (key : K) : Operation K → Bool
  | .queue (.unregister k _) => !(k == key)
  | .queue .clear => false
  | _ => true

namespace Session
variable {K : Type} [BEq K] [Hashable K]

/-- The continuations of a session that leave an object in place under a key. -/
structure Leaves (s : Session K) (key : K) (o : Object String) (ops : List (Operation K)) : Prop where
  calls : ∀ e ∈ s.exchanges ops, e.ends key = false
  queue : ∀ op ∈ ops, op.spares key = true
  passes : ∀ earlier later t, ops = earlier ++ .queue .collect :: later →
    (earlier.foldl next s).chain.tier? = some t →
      t.contents.OwnedBesides (earlier.foldl next s).inUse key o

theorem Leaves.tail {s : Session K} {key : K} {o : Object String} {op : Operation K}
    {ops : List (Operation K)} (h : s.Leaves key o (op :: ops)) : (s.next op).Leaves key o ops where
  calls e he := h.calls e (List.mem_append_right _ he)
  queue := (List.forall_mem_cons.mp h.queue).2
  passes earlier later t hops ht := h.passes (op :: earlier) later t (congrArg (op :: ·) hops) ht

/-- An object is in place under a key, and every recency layer has room for it beside some others. -/
structure Keeps (s : Session K) (key : K) (o : Object String) (others : List K) : Prop where
  retains : s.chain.Retains key o
  guards : s.chain.EachRecency (Recency.Guards key others)

variable [EquivBEq K] [LawfulHashable K] {s : Session K} {key : K} {o : Object String} {others : List K}

private theorem holds_act {t : Tier K (Object String)} (h : t.contents.Holds key o)
    {inUse : Object String → Bool} {action : QueueAction K}
    (hspares : (Operation.queue action).spares key = true)
    (hpass : action = .collect → t.contents.OwnedBesides inUse key o) :
    (t.act inUse action).contents.Holds key o := by
  cases action with
  | collect => exact h.collect (hpass rfl)
  | poll =>
    refine ⟨h.stored, h.registered, ?_⟩
    rw [Bool.eq_false_iff]
    intro hk
    obtain ⟨k, hk, hkey⟩ := List.contains_iff_exists_mem_beq.mp hk
    have hreported := List.contains_iff_exists_mem_beq.mpr ⟨k, List.mem_of_mem_tail hk, hkey⟩
    cases h.unreported.symm.trans hreported
  | drain => exact ⟨h.stored, h.registered, rfl⟩
  | unregister k keep =>
    refine ⟨h.stored, ?_, h.unreported⟩
    change (t.contents.registered.erase k).get? key = some o
    change (!(k == key)) = true at hspares
    have hother : (k == key) = false := by simpa using hspares
    simpa [hother] using h.registered
  | clear => cases hspares

omit [EquivBEq K] [LawfulHashable K] in
private theorem eachRecency_next {P : Nat → Recency K → Prop} (h : s.chain.EachRecency P)
    (op : Operation K) (hP : ∀ e ∈ s.exchange? op, Recency.Outlasts P e.request) :
    (s.next op).chain.EachRecency P := by
  cases s.effect op with
  | request e exchanged chain =>
    rw [chain]
    exact h.run s.inUse e.request (hP e exchanged)
  | queue action acted chain =>
    rw [chain]
    exact h.mapTier fun t => by cases action <;> rfl
  | none exchanged idle chain =>
    rw [chain]
    exact h

private theorem guards_outlasts {e : Exchange K (Object String)} (hends : e.ends key = false)
    (htouched : ∀ k ∈ e.touched?, (k == key) = true ∨ others.contains k = true) :
    Recency.Outlasts (Recency.Guards key others) e.request := by
  cases e with
  | put k v => exact fun _ _ hg => (hg.track (htouched k rfl)).1
  | get k found => exact fun _ _ hg => hg.touch (htouched k rfl)
  | remove k found => trivial
  | size n => trivial
  | clear => cases hends

private theorem ready_outlasts (e : Exchange K (Object String)) :
    Recency.Outlasts (Recency.Ready others) e.request := by
  cases e with
  | put k v => exact fun _ _ hr => hr.track k
  | get k found => exact fun _ _ hr => hr.touch k
  | remove k found => trivial
  | size n => trivial
  | clear => exact fun capacity _ hr => .empty hr.1

private theorem Keeps.next (h : s.Keeps key o others) {op : Operation K}
    (hcall : ∀ e ∈ s.exchange? op, e.ends key = false ∧
      ∀ k ∈ e.touched?, (k == key) = true ∨ others.contains k = true)
    (hspares : op.spares key = true)
    (hpass : op = .queue .collect → ∀ t, s.chain.tier? = some t →
      t.contents.OwnedBesides s.inUse key o) : (s.next op).Keeps key o others := by
  refine ⟨?_, eachRecency_next h.guards op fun e he => guards_outlasts (hcall e he).1 (hcall e he).2⟩
  cases s.effect op with
  | request e exchanged chain =>
    obtain ⟨hends, htouched⟩ := hcall e exchanged
    have hends' : e.request.ends key = false := by
      cases e <;> exact hends
    rw [chain]
    refine h.retains.run s.inUse e.request hends' (h.guards.evictedBy fun k v hr _ _ hg => ?_)
    cases e with
    | put k' v' =>
      cases hr
      exact (hg.track (htouched k rfl)).2
    | _ => cases hr
  | queue action acted chain =>
    subst acted
    rw [chain]
    refine h.retains.mapTier fun t ht hold => holds_act hold hspares fun hcollect => ?_
    exact hpass (congrArg Operation.queue hcollect) t ht
  | none exchanged idle chain =>
    rw [chain]
    exact h.retains

private theorem Keeps.run (h : s.Keeps key o others) {ops : List (Operation K)}
    (hleaves : s.Leaves key o ops)
    (hothers : ∀ e ∈ s.exchanges ops, ∀ k ∈ e.touched?, (k == key) = true ∨ others.contains k = true) :
    (ops.foldl Session.next s).Keeps key o others := by
  induction ops generalizing s with
  | nil => exact h
  | cons op ops ih =>
    have hcall : ∀ e ∈ s.exchange? op, e.ends key = false ∧
        ∀ k ∈ e.touched?, (k == key) = true ∨ others.contains k = true := by
      intro e he
      have hfirst : e ∈ s.exchanges (op :: ops) := List.mem_append_left _ (Option.mem_toList.mpr he)
      exact ⟨hleaves.calls e hfirst, hothers e hfirst⟩
    have hpass : op = .queue .collect → ∀ t, s.chain.tier? = some t →
        t.contents.OwnedBesides s.inUse key o := by
      intro hop t ht
      exact hleaves.passes [] ops t (congrArg (· :: ops) hop) ht
    exact ih (h.next hcall (hleaves.queue op List.mem_cons_self) hpass) hleaves.tail
      fun e he => hothers e (List.mem_append_right _ he)

private theorem ready_run (h : s.chain.EachRecency (Recency.Ready others)) (ops : List (Operation K)) :
    (ops.foldl Session.next s).chain.EachRecency (Recency.Ready others) := by
  induction ops generalizing s with
  | nil => exact h
  | cons op ops ih => exact ih (eachRecency_next h op fun e _ => ready_outlasts e)

/-- Wherever a run has got to, an object put then is found under its key later, if no call since has ended
the put, the program has left the registration alone, fewer other keys than the smallest recency layer
has places for were named by puts and lookups since, and every pass of the queue found another owner. -/
theorem get_finds_retained (name : String) (layers : List Layer) (before after : List (Operation K))
    {key : K} {value : Source String} {o : Object String} :
    let s : Session K := before.foldl next (start name layers)
    let s' := s.next (.put key value)
    s.exchange? (.put key value) = some (.put key o) → s'.Leaves key o after →
      (∀ capacity, .lru capacity ∈ layers →
        (Exchange.rivals key (s'.exchanges after)).length < capacity) →
      ∀ key' keep, (key' == key) = true →
        (after.foldl next s').exchange? (.get key' keep) = some (.get key' (some o)) := by
  intro s s' hput hleaves hfew key' keep hkey
  have hready : s.chain.EachRecency (Recency.Ready (Exchange.rivals key (s'.exchanges after))) :=
    ready_run (s := start name layers) (.ofLayers name fun capacity hc => .empty (hfew capacity hc)) before
  have hchain : s'.chain = (s.chain.put s.inUse key o).cache := by
    cases s.effect (.put key value) with
    | request e exchanged chain =>
      cases exchanged.symm.trans hput
      exact chain
    | queue action acted chain => cases acted
    | none exchanged idle chain => cases exchanged.symm.trans hput
  have hkeeps : s'.Keeps key o (Exchange.rivals key (s'.exchanges after)) := by
    refine ⟨?_, ?_⟩
    · rw [hchain]
      refine .of_put BEq.rfl s.inUse (hready.evictedBy ?_)
      rintro k v ⟨⟩ capacity recency hr
      exact (hr.guards key).2
    · rw [hchain]
      exact hready.put s.inUse key o fun _ _ hr => (hr.guards key).1
  have hend := hkeeps.run hleaves fun e he k hk => Exchange.touched_or_rival he hk
  have hfound := hend.retains.get (after.foldl next s').inUse hkey
  exact congrArg (fun found => some (Exchange.get key' found)) hfound

/-- A slot owns the object when a pass reclaims another, and the layers have a place for both keys. -/
theorem get_finds_retained_of_held :
    let layers := [Layer.lru 2, .weak 0, .lru 3, .logging]
    let before : List (Operation Nat) :=
      [.slot (.hold "a" "x"), .put 3 (.fresh "z"), .remove 3 none, .queue .collect]
    let after : List (Operation Nat) :=
      [.put 2 (.fresh "y"), .queue .collect, .queue .poll, .get 2 none]
    let s : Session Nat := before.foldl next (start "rows" layers)
    let s' := s.next (.put 1 (.slot "a"))
    s.exchange? (.put 1 (.slot "a")) = some (.put 1 ⟨0, "x"⟩) ∧ s'.Leaves 1 ⟨0, "x"⟩ after ∧
      (∀ capacity, .lru capacity ∈ layers →
        (Exchange.rivals 1 (s'.exchanges after)).length < capacity) ∧
      (after.foldl next s').exchange? (.get 1 none) = some (.get 1 (some ⟨0, "x"⟩)) := by
  intro layers before after s s'
  have hput : s.exchange? (.put 1 (.slot "a")) = some (.put 1 ⟨0, "x"⟩) := rfl
  have hleaves : s'.Leaves 1 ⟨0, "x"⟩ after := by
    refine ⟨by decide, by decide, ?_⟩
    intro earlier later t hafter ht
    change ([.put 2 (.fresh "y"), .queue .collect, .queue .poll, .get 2 none] : List (Operation Nat)) =
      _ at hafter
    rcases earlier with _ | ⟨first, _ | ⟨second, _ | ⟨third, _ | ⟨fourth, earlier⟩⟩⟩⟩
    · cases hafter
    · cases hafter
      exact .inl rfl
    · cases hafter
    · cases hafter
    · simp at hafter
  have hrivals : Exchange.rivals 1 (s'.exchanges after) = [2] := rfl
  have hfew : ∀ capacity, .lru capacity ∈ layers →
      (Exchange.rivals 1 (s'.exchanges after)).length < capacity := by
    rw [hrivals]
    intro capacity hc
    have hcapacity : capacity = 2 ∨ capacity = 3 := by simpa [layers] using hc
    change 1 < capacity
    omega
  refine ⟨hput, hleaves, hfew, ?_⟩
  exact get_finds_retained "rows" layers before after hput hleaves hfew 1 none rfl

end Session
end ResultCache
