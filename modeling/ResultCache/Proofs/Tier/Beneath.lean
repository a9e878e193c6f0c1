import ResultCache.Proofs.Stack.Inner
import ResultCache.Tier

/-! What a weak tier asks of the layers beneath it. They get each request of the tier with a handle in
place of the value; besides it they are asked for removals only. -/
namespace ResultCache
variable {K V : Type}

def Request.beneath : Request K V → Request K (Handle K V)
  | put k v => .put k ⟨k, v⟩
  | get k => .get k
  | remove k => .remove k
  | size => .size
  | clear => .clear

namespace Tier
variable [BEq K] [Hashable K]

theorem removeAll_cache (under : Stack (Store K (Handle K V)) K) (keys : List K) :
    (removeAll under keys).cache = Cache.removeEach () under keys := by
  induction keys generalizing under with
  | nil => rfl
  | cons k keys ih => exact ih (under.remove () k).cache

variable [BEq V] [Hashable V]

private theorem under_drain (t : Tier K V) :
    t.drain.cache.under = Cache.removeEach () t.under t.queue.pending :=
  removeAll_cache t.under t.queue.pending

/-- Reported keys are removed before the request, and after a lookup that finds a dead handle the key of
that handle is. -/
theorem under_run (inUse : V → Bool) (t : Tier K V) (request : Request K V) :
    ∃ dead, (request.run inUse t).cache.under = Cache.removeEach ()
      (request.beneath.run () (Cache.removeEach () t.under t.queue.pending)).cache dead := by
  have hdrain := t.under_drain
  cases request with
  | get k =>
    change ∃ dead, (t.get inUse k).cache.under = _
    rw [Tier.get, ← hdrain]
    dsimp only
    split
    · exact ⟨[], rfl⟩
    · split
      · exact ⟨[], rfl⟩
      · exact ⟨[k], rfl⟩
  | clear =>
    exact ⟨[], congrArg (fun under => (Stack.clear () under).cache) hdrain⟩
  | put k v =>
    rw [← hdrain]
    exact ⟨[], rfl⟩
  | remove k =>
    rw [← hdrain]
    exact ⟨[], rfl⟩
  | size =>
    rw [← hdrain]
    exact ⟨[], rfl⟩

/-- What every request keeps true of the layers beneath a tier, the requests of the tier keep true. -/
theorem under_preserves {P : Stack (Store K (Handle K V)) K → Prop}
    (hP : ∀ under (request : Request K (Handle K V)), P under → P (request.run () under).cache)
    {t : Tier K V} (h : P t.under) (inUse : V → Bool) (request : Request K V) :
    P (request.run inUse t).cache.under := by
  have hremove : ∀ (under : Stack (Store K (Handle K V)) K) (k : K), P under →
      P (Cache.remove () under k).cache := fun under k => hP under (.remove k)
  obtain ⟨dead, hunder⟩ := t.under_run inUse request
  rw [hunder]
  apply Cache.removeEach_preserves hremove
  apply hP
  exact Cache.removeEach_preserves hremove h _

end Tier
end ResultCache
