import ResultCache.Proofs.Cache.Simulation
import ResultCache.Proofs.Stack.Events

/-! Caches that no call can tell apart, not even by what is traced on the way. If this holds of the caches
inside two stacks with the same recency layers, it holds of the stacks. The ratios of lookups, which
logging layers report, are no traces. -/
namespace ResultCache

/-- The events that tell of evictions and of reclaimed values. -/
def Event.traces (events : List Event) : List Event := events.filter fun event => event.level = .trace

@[simp] theorem Event.traces_append (events more : List Event) :
    traces (events ++ more) = traces events ++ traces more := List.filter_append events more

theorem Event.traces_congr {events events' more more' : List Event} (h : traces events = traces events')
    (hmore : traces more = traces more') : traces (events ++ more) = traces (events' ++ more') := by
  rw [traces_append, traces_append, h, hmore]

@[simp] theorem Event.traces_lookedUp (ratios : List Binary64) : traces (ratios.map lookedUp) = [] := by
  refine List.filter_eq_nil_iff.mpr fun event he => ?_
  obtain ⟨ratio, -, rfl⟩ := List.mem_map.mp he
  exact Bool.false_ne_true

open Event (traces traces_append traces_congr traces_lookedUp)

/-- Outcomes with the same answer and the same traces that leave related caches behind. -/
structure Outcome.Alike {σ α : Type} (R : σ → σ → Prop) (o p : Outcome σ α) : Prop where
  cache : R o.cache p.cache
  answer : o.answer = p.answer
  traces : traces o.events = traces p.events

theorem Outcome.Alike.after {σ α : Type} {R : σ → σ → Prop} {o p : Outcome σ α} (h : o.Alike R p)
    {events events' : List Event} (he : Event.traces events = Event.traces events') :
    (o.after events).Alike R (p.after events') :=
  ⟨h.cache, h.answer, traces_congr he h.traces⟩

theorem Outcome.Alike.imp {σ α : Type} {R Q : σ → σ → Prop} {o p : Outcome σ α} (h : o.Alike R p)
    (hrq : ∀ a b, R a b → Q a b) : o.Alike Q p := ⟨hrq _ _ h.cache, h.answer, h.traces⟩

theorem Outcome.Alike.map {σ τ α : Type} {R : σ → σ → Prop} {Q : τ → τ → Prop} {o p : Outcome σ α}
    (h : o.Alike R p) {f g : σ → τ} (hfg : ∀ a b, R a b → Q (f a) (g b)) : (o.map f).Alike Q (p.map g) :=
  ⟨hfg _ _ h.cache, h.answer, h.traces⟩

/-- Related caches answer every call alike, with the same traces, and stay related. -/
structure Cache.Tracing {σ ω K V : Type} [Cache σ ω K V] (R : σ → σ → Prop) (world : ω) : Prop where
  put : ∀ {a b}, R a b → ∀ k v, (Cache.put world a k v).Alike R (Cache.put world b k v)
  get : ∀ {a b}, R a b → ∀ k, (Cache.get world a k).Alike R (Cache.get world b k)
  remove : ∀ {a b}, R a b → ∀ k, (Cache.remove world a k).Alike R (Cache.remove world b k)
  size : ∀ {a b}, R a b → (Cache.size world a).Alike R (Cache.size world b)
  clear : ∀ {a b}, R a b → (Cache.clear world a).Alike R (Cache.clear world b)

namespace Cache.Tracing
variable {σ ω K V : Type} [Cache σ ω K V] {R : σ → σ → Prop} {world : ω}

theorem eq (world : ω) : Cache.Tracing (fun a b : σ => b = a) world where
  put {a b} h k v := by rw [h]; exact ⟨rfl, rfl, rfl⟩
  get {a b} h k := by rw [h]; exact ⟨rfl, rfl, rfl⟩
  remove {a b} h k := by rw [h]; exact ⟨rfl, rfl, rfl⟩
  size {a b} h := by rw [h]; exact ⟨rfl, rfl, rfl⟩
  clear {a b} h := by rw [h]; exact ⟨rfl, rfl, rfl⟩

variable (law : Cache.Tracing R world) {a b : σ}
include law

theorem traces_run (h : R a b) (request : Request K V) :
    traces (request.run world a).events = traces (request.run world b).events := by
  cases request with
  | put k v => exact (law.put h k v).traces
  | get k => exact (law.get h k).traces
  | remove k => exact (law.remove h k).traces
  | size => exact (law.size h).traces
  | clear => exact (law.clear h).traces

theorem simulation : Cache.Simulation R world where
  put h k v := (law.put h k v).cache
  get h k := ⟨(law.get h k).cache, (law.get h k).answer⟩
  remove h k := ⟨(law.remove h k).cache, (law.remove h k).answer⟩
  size h := ⟨(law.size h).cache, (law.size h).answer⟩
  clear h := (law.clear h).cache

end Cache.Tracing

namespace Stack
variable {σ ω K V : Type} [BEq K] [Hashable K] [Cache σ ω K V] {R : σ → σ → Prop} {world : ω}
variable (law : Cache.Tracing R world) {s t : Stack σ K}
include law

private theorem Beside.traces_remove (h : Beside R s t) (k : K) :
    traces (s.remove world k).events = traces (t.remove world k).events := by
  induction h with
  | core inner => exact (law.remove inner k).traces
  | lru capacity recency under ih => exact ih
  | logging stats stats' under ih => exact ih

private theorem Beside.traces_run (h : Beside R s t) (request : Request K V) :
    traces (request.run world s).events = traces (request.run world t).events := by
  induction h with
  | core inner =>
    rw [events_core, events_core]
    exact law.traces_run inner request
  | lru capacity recency under ih =>
    rw [events_lru, events_lru]
    refine traces_congr ih ?_
    cases victim? capacity recency request with
    | none => rfl
    | some eldest =>
      have hafter := ((Stack.simulation law.simulation).run under request).1
      exact congrArg (Event.evicted capacity :: ·) (hafter.traces_remove law eldest)
  | @logging s t stats stats' under ih =>
    obtain ⟨ratios, hevents⟩ := events_logging world stats s request
    obtain ⟨ratios', hevents'⟩ := events_logging world stats' t request
    rw [hevents, hevents']
    exact traces_congr ih ((traces_lookedUp ratios).trans (traces_lookedUp ratios').symm)

/-- Layers alike around caches that cannot be told apart by calls and traces cannot be told apart by
these. -/
theorem tracing : Cache.Tracing (Beside (K := K) R) world where
  put h k v := ⟨(Stack.simulation law.simulation).put h k v, rfl, h.traces_run law (.put k v)⟩
  get h k :=
    have hget := (Stack.simulation law.simulation).get h k
    ⟨hget.1, hget.2, h.traces_run law (.get k)⟩
  remove h k :=
    have hremove := (Stack.simulation law.simulation).remove h k
    ⟨hremove.1, hremove.2, h.traces_run law (.remove k)⟩
  size h :=
    have hsize := (Stack.simulation law.simulation).size h
    ⟨hsize.1, hsize.2, h.traces_run law .size⟩
  clear h := ⟨(Stack.simulation law.simulation).clear h, rfl, h.traces_run law .clear⟩

end Stack
end ResultCache
