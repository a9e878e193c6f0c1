import ResultCache.Proofs.Cache.Simulation
import ResultCache.Proofs.Tier.Contents

/-! When the entries of reclaimed values are dropped. A tier drops them at its next call; beside it
stands a tier from whose store each pass of the queue deletes them at once. No call tells the two
apart. -/
namespace ResultCache.Tier
open Stack (Beside)
variable {K V : Type} [BEq K] [Hashable K]

private theorem removeAll_beside {s t : Stack (Store K (Handle K V)) K} {keys : List K}
    (h : Beside (fun a b => b = a.dropEach keys) s t) :
    Beside (fun a b => b = a) (removeAll s keys).cache t := by
  induction keys generalizing s with
  | nil => exact h.imp fun _ _ hd => hd
  | cons k keys ih => exact ih (h.remove_left fun _ _ hd => hd)

private theorem same_store :
    Cache.Simulation (Beside (σ := Store K (Handle K V)) (K := K) fun a b => b = a) () :=
  Stack.simulation (.eq ())

variable [BEq V] [Hashable V]

/-- A pass of the queue after which nothing stays reported: the entries are deleted from the store
itself, and no layer over it is told. -/
def collectEagerly (t : Tier K V) (inUse : V → Bool) : List K × Tier K V :=
  let (keys, t) := t.collect inUse
  (keys, { t with
    queue := { t.queue with pending := [] }
    under := t.under.mapInner fun store => store.dropEach keys })

/-- The second tier is the first with the reported keys deleted from its store. -/
structure Settles (lazy eager : Tier K V) : Prop where
  registered : eager.queue.registered = lazy.queue.registered
  pending : eager.queue.pending = []
  pins : eager.pins = lazy.pins
  pinCount : eager.pinCount = lazy.pinCount
  under : Beside (fun a b => b = a.dropEach lazy.queue.pending) lazy.under eager.under

theorem Settles.refl {t : Tier K V} (h : t.queue.pending = []) : Settles t t := by
  refine ⟨rfl, h, rfl, rfl, .refl t.under ?_⟩
  rw [h]
  rfl

/-- After draining there is no difference left, but for the counts of calls. -/
theorem Settles.drain {lazy eager : Tier K V} (h : Settles lazy eager) :
    ∃ queue pins pinCount under under' events events',
      lazy.drain = ⟨⟨queue, pins, pinCount, under⟩, (), events⟩ ∧
      eager.drain = ⟨⟨queue, pins, pinCount, under'⟩, (), events'⟩ ∧ queue.pending = [] ∧
      Beside (fun a b => b = a) under under' := by
  obtain ⟨hreg, hpend, hpins, hcount, hunder⟩ := h
  refine ⟨_, _, _, _, eager.under, _, [], rfl, ?_, rfl, removeAll_beside hunder⟩
  rw [Tier.drain, Queue.drain, hpend, hreg, hpins, hcount]
  rfl

private theorem Settles.of_same {queue : Queue K V} {pins : Pins V} {pinCount : Nat}
    {under under' : Stack (Store K (Handle K V)) K} (hp : queue.pending = [])
    (h : Beside (fun a b => b = a) under under') :
    Settles ⟨queue, pins, pinCount, under⟩ ⟨queue, pins, pinCount, under'⟩ := by
  refine ⟨rfl, hp, rfl, rfl, h.imp fun _ _ hd => ?_⟩
  rw [hd, hp]
  rfl

theorem Settles.collect {lazy eager : Tier K V} (h : Settles lazy eager) (inUse : V → Bool) :
    (lazy.collect inUse).1 = (eager.collectEagerly inUse).1 ∧
      Settles (lazy.collect inUse).2 (eager.collectEagerly inUse).2 := by
  obtain ⟨⟨registered, pending⟩, pins, pinCount, under⟩ := lazy
  obtain ⟨⟨_, _⟩, _, _, under'⟩ := eager
  obtain ⟨rfl, rfl, rfl, rfl, hunder⟩ := h
  refine ⟨rfl, rfl, rfl, rfl, rfl, hunder.mapInner_right fun store _ hd => ?_⟩
  rw [hd]
  exact (store.dropEach_append pending _).symm

theorem Settles.owners {lazy eager : Tier K V} (h : Settles lazy eager) (v : V) :
    lazy.owners v = eager.owners v := by
  rw [Tier.owners, Tier.owners, Queue.registrations, Queue.registrations, h.pins, h.registered]

private theorem Settles.put {lazy eager : Tier K V} (h : Settles lazy eager) (k : K) (v : V) :
    Settles (lazy.put k v).cache (eager.put k v).cache := by
  obtain ⟨queue, pins, pinCount, under, under', _, _, hl, he, hp, hu⟩ := h.drain
  rw [Tier.put, Tier.put, hl, he]
  exact .of_same hp (same_store.put hu k ⟨k, v⟩)

private theorem Settles.get {lazy eager : Tier K V} (h : Settles lazy eager) (inUse : V → Bool) (k : K) :
    Settles (lazy.get inUse k).cache (eager.get inUse k).cache ∧
      (lazy.get inUse k).answer = (eager.get inUse k).answer := by
  obtain ⟨queue, pins, pinCount, under, under', _, _, hl, he, hp, hu⟩ := h.drain
  have hg : Beside (fun a b => b = a) (under.get () k).cache (under'.get () k).cache ∧
    (under.get () k).answer = (under'.get () k).answer := same_store.get hu k
  rw [Tier.get, Tier.get, hl, he]
  dsimp only
  generalize under.get () k = looked at hg ⊢
  generalize under'.get () k = looked' at hg ⊢
  obtain ⟨under, found, _⟩ := looked
  obtain ⟨under', _, _⟩ := looked'
  obtain ⟨hs, rfl⟩ := hg
  cases found with
  | none => exact ⟨.of_same hp hs, rfl⟩
  | some handle =>
    have halive : isAlive inUse ⟨queue, pins, pinCount, under'⟩ handle.referent =
      isAlive inUse ⟨queue, pins, pinCount, under⟩ handle.referent := rfl
    dsimp only
    rw [halive]
    split
    · exact ⟨.of_same hp hs, rfl⟩
    · exact ⟨.of_same hp (same_store.remove hs k).1, rfl⟩

private theorem Settles.remove {lazy eager : Tier K V} (h : Settles lazy eager) (inUse : V → Bool) (k : K) :
    Settles (lazy.remove inUse k).cache (eager.remove inUse k).cache ∧
      (lazy.remove inUse k).answer = (eager.remove inUse k).answer := by
  obtain ⟨queue, pins, pinCount, under, under', _, _, hl, he, hp, hu⟩ := h.drain
  obtain ⟨hs, ha⟩ := same_store.remove hu k
  rw [Tier.remove, Tier.remove, hl, he]
  refine ⟨.of_same hp hs, ?_⟩
  exact congrArg (fun removed : Option (Handle K V) => (removed.map Handle.referent).filter
    (isAlive inUse ⟨queue, pins, pinCount, under⟩)) ha

private theorem Settles.size {lazy eager : Tier K V} (h : Settles lazy eager) :
    Settles lazy.size.cache eager.size.cache ∧ lazy.size.answer = eager.size.answer := by
  obtain ⟨queue, pins, pinCount, under, under', _, _, hl, he, hp, hu⟩ := h.drain
  obtain ⟨hs, ha⟩ := same_store.size hu
  rw [Tier.size, Tier.size, hl, he]
  exact ⟨.of_same hp hs, ha⟩

private theorem Settles.clear {lazy eager : Tier K V} (h : Settles lazy eager) :
    Settles lazy.clear.cache eager.clear.cache := by
  have hf : Settles { lazy with pins := .empty } { eager with pins := .empty } :=
    ⟨h.registered, h.pending, rfl, h.pinCount, h.under⟩
  obtain ⟨queue, pins, pinCount, under, under', _, _, hl, he, -, hu⟩ := hf.drain
  rw [Tier.clear, Tier.clear, hl, he]
  exact .of_same rfl (same_store.clear hu)

theorem simulation (inUse : V → Bool) : Cache.Simulation (Settles (K := K)) inUse where
  put h := h.put
  get h := h.get inUse
  remove h := h.remove inUse
  size h := h.size
  clear h := h.clear

end ResultCache.Tier
