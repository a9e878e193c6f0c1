import ResultCache.Proofs.Cache.Tracing
import ResultCache.Store
import ResultCache.Tier

/-! Weak tiers over layers that cannot be told apart by calls and traces. No call and no pass of the queue
tells the tiers apart. This is so if the layers beneath differ in what logging layers have counted. -/
namespace ResultCache.Tier
open Event (traces traces_congr)
open Stack (Beside)
variable {K V : Type} [BEq K] [Hashable K]
variable {U : Stack (Store K (Handle K V)) K → Stack (Store K (Handle K V)) K → Prop}

private theorem alike_removeAll (law : Cache.Tracing U ()) {under under' : Stack (Store K (Handle K V)) K}
    (h : U under under') (keys : List K) : (removeAll under keys).Alike U (removeAll under' keys) := by
  induction keys generalizing under under' with
  | nil => exact ⟨h, rfl, rfl⟩
  | cons k keys ih =>
    have hremoved : (under.remove () k).Alike U (under'.remove () k) := law.remove h k
    exact (ih hremoved.cache).after hremoved.traces

variable [BEq V] [Hashable V]

/-- The second tier is the first with other layers beneath it, which are related to its own. -/
inductive Over (U : Stack (Store K (Handle K V)) K → Stack (Store K (Handle K V)) K → Prop)
    (t : Tier K V) : Tier K V → Prop
  | mk {under : Stack (Store K (Handle K V)) K} (h : U t.under under) : Over U t { t with under }

namespace Over
variable {t u : Tier K V}

theorem under (h : t.Over U u) : U t.under u.under := by
  obtain ⟨hunder⟩ := h
  exact hunder

theorem owners (h : t.Over U u) (v : V) : t.owners v = u.owners v := by
  obtain ⟨-⟩ := h
  rfl

variable (law : Cache.Tracing U ())
include law

private theorem drain (h : t.Over U u) : ∃ drained under events events',
    t.drain = ⟨drained, (), events⟩ ∧ u.drain = ⟨{ drained with under }, (), events'⟩ ∧
      U drained.under under ∧ traces events = traces events' := by
  obtain ⟨h⟩ := h
  have hremoved := alike_removeAll law h t.queue.pending
  exact ⟨_, _, _, _, rfl, rfl, hremoved.cache, traces_congr hremoved.traces rfl⟩

private theorem put (h : t.Over U u) (k : K) (v : V) : (t.put k v).Alike (Over U) (u.put k v) := by
  obtain ⟨drained, under, events, events', ht, hu, hunder, hevents⟩ := h.drain law
  have hput := law.put hunder k ⟨k, v⟩
  rw [Tier.put, Tier.put, ht, hu]
  refine Outcome.Alike.after ?_ hevents
  exact ⟨⟨hput.cache⟩, rfl, hput.traces⟩

private theorem get (h : t.Over U u) (inUse : V → Bool) (k : K) :
    (t.get inUse k).Alike (Over U) (u.get inUse k) := by
  obtain ⟨drained, under, events, events', ht, hu, hunder, hevents⟩ := h.drain law
  have hget : (drained.under.get () k).Alike U (under.get () k) := law.get hunder k
  rw [Tier.get, Tier.get, ht, hu]
  dsimp only
  generalize drained.under.get () k = looked at hget ⊢
  generalize under.get () k = looked' at hget ⊢
  obtain ⟨looked, found, more⟩ := looked
  obtain ⟨looked', _, more'⟩ := looked'
  obtain ⟨hlooked, rfl, hmore⟩ := hget
  have hboth : traces (events ++ more) = traces (events' ++ more') := traces_congr hevents hmore
  cases found with
  | none => exact ⟨⟨hlooked⟩, rfl, hboth⟩
  | some handle =>
    have halive : isAlive inUse { drained with under := looked' } handle.referent =
      isAlive inUse { drained with under := looked } handle.referent := rfl
    dsimp only
    rw [halive]
    split
    · exact ⟨⟨hlooked⟩, rfl, hboth⟩
    · have hremoved := law.remove hlooked k
      exact ⟨⟨hremoved.cache⟩, rfl, traces_congr hboth hremoved.traces⟩

private theorem remove (h : t.Over U u) (inUse : V → Bool) (k : K) :
    (t.remove inUse k).Alike (Over U) (u.remove inUse k) := by
  obtain ⟨drained, under, events, events', ht, hu, hunder, hevents⟩ := h.drain law
  have hremoved := law.remove hunder k
  rw [Tier.remove, Tier.remove, ht, hu]
  refine ⟨⟨hremoved.cache⟩, ?_, traces_congr hevents hremoved.traces⟩
  exact congrArg (fun removed : Option (Handle K V) => (removed.map Handle.referent).filter
    (drained.isAlive inUse)) hremoved.answer

private theorem size (h : t.Over U u) : t.size.Alike (Over U) u.size := by
  obtain ⟨drained, under, events, events', ht, hu, hunder, hevents⟩ := h.drain law
  have hsize := law.size hunder
  rw [Tier.size, Tier.size, ht, hu]
  refine Outcome.Alike.after ?_ hevents
  exact ⟨⟨hsize.cache⟩, hsize.answer, hsize.traces⟩

private theorem clear (h : t.Over U u) : t.clear.Alike (Over U) u.clear := by
  obtain ⟨h⟩ := h
  have hunpinned : Over U { t with pins := .empty } _ := ⟨h⟩
  obtain ⟨drained, under, events, events', ht, hu, hunder, hevents⟩ := hunpinned.drain law
  have hclear := law.clear hunder
  rw [Tier.clear, Tier.clear, ht, hu]
  refine Outcome.Alike.after ?_ hevents
  exact ⟨⟨hclear.cache⟩, rfl, hclear.traces⟩

theorem tracing (inUse : V → Bool) : Cache.Tracing (Over U) inUse where
  put h := h.put law
  get h := h.get law inUse
  remove h := h.remove law inUse
  size h := h.size law
  clear h := h.clear law

end Over

/-- The second tier is the first with other counts of calls beneath it. -/
inductive Alike (t : Tier K V) : Tier K V → Prop
  | mk {under : Stack (Store K (Handle K V)) K} (h : Beside (fun a b => b = a) t.under under) :
    Alike t { t with under }

theorem alike_eq_over : Alike (K := K) (V := V) = Over (Beside fun a b => b = a) :=
  funext fun _ => funext fun _ => propext ⟨fun ⟨h⟩ => ⟨h⟩, fun ⟨h⟩ => ⟨h⟩⟩

variable {t u : Tier K V}

theorem Alike.under (h : t.Alike u) : Beside (fun a b => b = a) t.under u.under := by
  obtain ⟨hunder⟩ := h
  exact hunder

theorem Alike.owners (h : t.Alike u) (v : V) : t.owners v = u.owners v := by
  obtain ⟨-⟩ := h
  rfl

theorem tracing (inUse : V → Bool) : Cache.Tracing (Alike (K := K)) inUse := by
  rw [alike_eq_over]
  exact Over.tracing (Stack.tracing (.eq ())) inUse

end ResultCache.Tier
