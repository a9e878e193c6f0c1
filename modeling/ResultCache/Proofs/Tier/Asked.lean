import ResultCache.Proofs.Stack.Visits
import ResultCache.Proofs.Tier.Beneath

/-! What a weak tier asks of the layers beneath it, in full: the removal of each reported key, the request itself
with a handle in place of the value, and the removal of a handle that leads to no value any more. -/
namespace ResultCache.Tier
variable {K V : Type} [BEq K] [Hashable K] [BEq V] [Hashable V]

/-- The keys whose handles a request finds dead. Only a lookup finds any. -/
def dead (inUse : V → Bool) (t : Tier K V) : Request K V → List K
  | .get k =>
    if (t.drain.cache.under.get () k).answer.any fun handle => !t.isAlive inUse handle.referent then [k] else []
  | _ => []

/-- The requests that a tier makes of the layers beneath it in the course of one request. -/
def asks (inUse : V → Bool) (t : Tier K V) (request : Request K V) : List (Request K (Handle K V)) :=
  t.queue.pending.map .remove ++ request.beneath :: (t.dead inUse request).map .remove

def asksAll (inUse : V → Bool) (t : Tier K V) : List (Request K V) → List (Request K (Handle K V))
  | [] => []
  | request :: requests => t.asks inUse request ++ (request.run inUse t).cache.asksAll inUse requests

omit [BEq V] [Hashable V] in
private theorem runAll_remove (under : Stack (Store K (Handle K V)) K) (keys : List K) :
    (Request.runAll () under (keys.map .remove)).cache = (removeAll under keys).cache := by
  induction keys generalizing under with
  | nil => rfl
  | cons k keys ih => exact ih (under.remove () k).cache

/-- The layers beneath a tier see what the tier asks of them and nothing else. -/
theorem under_asks (inUse : V → Bool) (t : Tier K V) (request : Request K V) :
    (request.run inUse t).cache.under = (Request.runAll () t.under (t.asks inUse request)).cache := by
  have hdrain : (Request.runAll () t.under (t.queue.pending.map .remove)).cache = t.drain.cache.under :=
    runAll_remove t.under t.queue.pending
  rw [asks, Request.runAll_append, hdrain]
  cases request with
  | get k =>
    change (t.get inUse k).cache.under =
      (Request.runAll () (t.drain.cache.under.get () k).cache ((t.dead inUse (.get k)).map .remove)).cache
    rw [Tier.get, dead]
    dsimp only
    cases (t.drain.cache.under.get () k).answer with
    | none => rfl
    | some handle =>
      have halive : isAlive inUse { t.drain.cache with under := (t.drain.cache.under.get () k).cache }
        handle.referent = t.isAlive inUse handle.referent := rfl
      dsimp only at halive ⊢
      rw [halive, Option.any_some]
      cases t.isAlive inUse handle.referent <;> rfl
  | _ => rfl

theorem under_asksAll (inUse : V → Bool) (t : Tier K V) (requests : List (Request K V)) :
    (Request.runAll inUse t requests).cache.under =
      (Request.runAll () t.under (t.asksAll inUse requests)).cache := by
  induction requests generalizing t with
  | nil => rfl
  | cons request requests ih =>
    rw [asksAll, Request.runAll_append, ← under_asks]
    exact ih (request.run inUse t).cache

end ResultCache.Tier
