import Mathlib.Algebra.GroupWithZero.Nat
import ResultCache.Proofs.Stack.Notices
import ResultCache.Proofs.Tier.Faithful
import ResultCache.Proofs.Tier.Registration

/-! What becomes of reported keys when a weak tier is used. The tier takes them all, drops their entries
and reports how many there were, whatever the request. -/
namespace ResultCache.Tier
open Event (reclaims reclaims_append)
variable {K V : Type}

/-- Taking so many keys from the queue is reported unless there are none. -/
def notice (keys : List K) : List Nat := if keys.isEmpty then [] else [keys.length]

theorem sum_notice (keys : List K) : (notice keys).sum = keys.length := by
  cases keys <;> rfl

theorem notice_eq_nil {keys : List K} (h : notice keys = []) : keys = [] := by
  cases keys with
  | nil => rfl
  | cons k keys => cases h

variable [BEq K] [Hashable K]

private theorem handles_report_nothing :
    Cache.Reports (fun _ : Stack (Store K (Handle K V)) K => []) () :=
  Stack.reports Store.reports_nothing

private theorem reclaims_removeAll (under : Stack (Store K (Handle K V)) K) (keys : List K) :
    reclaims (removeAll under keys).events = [] := by
  induction keys generalizing under with
  | nil => rfl
  | cons k keys ih =>
    have hremoved : reclaims (under.remove () k).events = [] :=
      handles_report_nothing.reports under (.remove k)
    change reclaims ((under.remove () k).events ++ (removeAll _ keys).events) = []
    simp [hremoved, ih]

variable [BEq V] [Hashable V]

private theorem reclaims_drain (t : Tier K V) : reclaims t.drain.events = notice t.queue.pending := by
  change reclaims ((removeAll t.under t.queue.pending).events ++
    if t.queue.pending.isEmpty then [] else [.reclaimed t.queue.pending.length]) = _
  rw [reclaims_append, reclaims_removeAll, List.nil_append, notice]
  split <;> rfl

private theorem reclaims_run (inUse : V → Bool) (t : Tier K V) (request : Request K V) :
    reclaims (request.run inUse t).events = notice t.queue.pending := by
  have hunder := handles_report_nothing.reports t.drain.cache.under
  have hafter : ∀ more, reclaims more = [] →
      reclaims (t.drain.events ++ more) = notice t.queue.pending := fun more hmore => by
    simp [reclaims_drain, hmore]
  cases request with
  | put k v => exact hafter _ (hunder (.put k ⟨k, v⟩))
  | get k =>
    have hlooked : reclaims (t.drain.cache.under.get () k).events = [] := hunder (.get k)
    change reclaims (t.get inUse k).events = _
    rw [Tier.get]
    dsimp only
    split
    · exact hafter _ hlooked
    · split
      · exact hafter _ hlooked
      · rw [List.append_assoc]
        refine hafter _ ?_
        rw [reclaims_append, hlooked]
        exact handles_report_nothing.reports _ (.remove k)
  | remove k => exact hafter _ (hunder (.remove k))
  | size => exact hafter _ (hunder .size)
  | clear => exact hafter _ (hunder .clear)

theorem reports (inUse : V → Bool) :
    Cache.Reports (fun t : Tier K V => notice t.queue.pending) inUse where
  reports := reclaims_run inUse
  settles t request := by
    have hpending : (request.run inUse t).cache.queue.pending = [] := by
      change (request.run inUse t).cache.contents.pending = []
      rw [run_contents, Contents.pending_run]
    rw [hpending]
    rfl

variable [EquivBEq K] [LawfulHashable K]

/-- What is stored under a reported key after a request was just put there. -/
theorem Contents.stored_run {inUse : V → Bool} {pinCount : Nat} {evicted : List K} {c : Contents K V}
    {request : Request K V} {k : K} {v : V} (hk : c.pending.contains k = true)
    (hv : (c.run inUse pinCount evicted request).stored k = some v) :
    ∃ k', request = .put k' v ∧ (k' == k) = true := by
  have hdrained : c.drain.stored k ≠ some v := by
    intro hstored
    obtain ⟨handle, he, -⟩ := stored_eq_some.mp hstored
    rw [(Store.some_of_eraseEach he).1] at hk
    cases hk
  cases request with
  | put k' v' =>
    rcases stored_put hv with ⟨hput, rfl⟩ | ⟨-, hstored⟩
    · exact ⟨k', rfl, hput⟩
    · exact (hdrained hstored).elim
  | get k' => exact (hdrained (stored_lookedUp hv)).elim
  | remove k' => exact (hdrained (stored_remove hv).2).elim
  | size => exact (hdrained hv).elim
  | clear =>
    obtain ⟨handle, he, -⟩ := stored_eq_some.mp hv
    rw [run, empty, Std.HashMap.getElem?_empty] at he
    cases he

end ResultCache.Tier
