import ResultCache.Proofs.Stack.Events
import ResultCache.Store

/-! What caches report of reclaimed values. A cache that reports all that is due with each request reports
the same with layers around it. -/
namespace ResultCache

def Event.reclaimed? : Event → Option Nat
  | reclaimed count => some count
  | _ => none

def Event.reclaims (events : List Event) : List Nat := events.filterMap reclaimed?

@[simp] theorem Event.reclaims_append (events more : List Event) :
    reclaims (events ++ more) = reclaims events ++ reclaims more := List.filterMap_append

open Event (reclaims)

/-- Each request reports what is due before it, and nothing is due afterwards. -/
structure Cache.Reports {σ ω K V : Type} [Cache σ ω K V] (due : σ → List Nat) (world : ω) : Prop where
  reports : ∀ a (request : Request K V), reclaims (request.run world a).events = due a
  settles : ∀ a (request : Request K V), due (request.run world a).cache = []

theorem Store.reports_nothing {K V : Type} [BEq K] [Hashable K] :
    Cache.Reports (fun _ : Store K V => []) () where
  reports a request := by cases request <;> rfl
  settles a request := rfl

namespace Stack
variable {σ ω K V : Type} [BEq K] [Hashable K] [Cache σ ω K V] {due : σ → List Nat} {world : ω}

private theorem settled (law : Cache.Reports due world) (s : Stack σ K) (request : Request K V) :
    due (request.run world s).cache.inner = [] := by
  rw [(run_inner world s request).1]
  exact Cache.removeEach_preserves (P := fun a => due a = []) (fun a k _ => law.settles a (.remove k))
    (law.settles s.inner request) _

private theorem reclaims_remove (law : Cache.Reports due world) (s : Stack σ K) (k : K) :
    reclaims (s.remove world k).events = due s.inner := by
  induction s with
  | core cache => exact law.reports cache (.remove k)
  | lru capacity recency under ih => exact ih
  | logging stats under ih => exact ih

private theorem reclaims_makingRoom (law : Cache.Reports due world) (capacity : Nat) (under : Stack σ K)
    (request : Request K V) (victim : Option K) :
    reclaims (makingRoom world capacity (request.run world under).cache victim) = [] := by
  cases victim with
  | none => rfl
  | some eldest => exact (reclaims_remove law _ eldest).trans (settled law under request)

private theorem reclaims_run (law : Cache.Reports due world) (s : Stack σ K) (request : Request K V) :
    reclaims (request.run world s).events = due s.inner := by
  induction s with
  | core cache => rw [events_core, law.reports, inner]
  | lru capacity recency under ih => simp [events_lru, ih, reclaims_makingRoom law, inner]
  | logging stats under ih =>
    obtain ⟨ratios, hevents⟩ := events_logging world stats under request
    have hratios : reclaims (ratios.map Event.lookedUp) = [] := by
      refine List.filterMap_eq_nil_iff.mpr fun event he => ?_
      obtain ⟨ratio, -, rfl⟩ := List.mem_map.mp he
      rfl
    simp [hevents, ih, hratios, inner]

/-- Layers add no report of their own. -/
theorem reports (law : Cache.Reports due world) :
    Cache.Reports (fun s : Stack σ K => due s.inner) world where
  reports := reclaims_run law
  settles := settled law

end Stack
end ResultCache
