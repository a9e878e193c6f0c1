import ResultCache.Proofs.Store.Entries
import ResultCache.Tier

/-! What a weak tier knows, without the layers beneath it: the stored handles, the registrations, the
reported keys and the pins. Each call of the tier is described by what it does to these. -/
namespace ResultCache.Tier
open Store (eraseEach)

structure Contents (K V : Type) [BEq K] [Hashable K] [BEq V] [Hashable V] where
  entries : Std.HashMap K (Handle K V)
  registered : Registry K V
  pending : List K
  pins : Pins V

theorem removeAll_inner {K V : Type} [BEq K] [Hashable K] (under : Stack (Store K (Handle K V)) K)
    (keys : List K) :
    (removeAll under keys).cache.inner = under.inner.dropEach keys := by
  induction keys generalizing under with
  | nil => rfl
  | cons k keys ih =>
    have hr := (Stack.remove_inner () under k).1
    rw [removeAll]
    exact (ih _).trans (by rw [hr]; rfl)

theorem removeAll_evictions {K V : Type} [BEq K] [Hashable K] (under : Stack (Store K (Handle K V)) K)
    (keys : List K) (k : K) : (removeAll under keys).cache.evictions k = under.evictions k := by
  induction keys generalizing under with
  | nil => rfl
  | cons j keys ih => exact (ih _).trans (Stack.evictions_remove () under j k)

variable {K V : Type} [BEq K] [Hashable K] [BEq V] [Hashable V]

def contents (t : Tier K V) : Contents K V :=
  ⟨t.under.inner.entries, t.queue.registered, t.queue.pending, t.pins⟩

namespace Contents

def isAlive (inUse : V → Bool) (c : Contents K V) (v : V) : Bool :=
  inUse v || c.pins.contains v || c.registered.contains v

/-- The entries of the reported keys are dropped. -/
def drain (c : Contents K V) : Contents K V :=
  { c with entries := eraseEach c.entries c.pending, pending := [] }

/-- The value that the stored handle of a key leads to, if it is still alive. -/
def find (inUse : V → Bool) (c : Contents K V) (k : K) : Option V :=
  (c.entries[k]?.map Handle.referent).filter (c.isAlive inUse)

/-- A value found is pinned, and the handle of one that is gone is dropped. -/
def lookedUp (inUse : V → Bool) (pinCount : Nat) (c : Contents K V) (k : K) : Contents K V :=
  match c.entries[k]? with
  | none => c
  | some handle =>
    if c.isAlive inUse handle.referent then
      let pins := c.pins.push handle.referent
      { c with pins := if pinCount < pins.size then pins.dropOldest else pins }
    else { c with entries := c.entries.erase k }

def remove (c : Contents K V) (k : K) : Contents K V :=
  { c with entries := c.entries.erase k, registered := c.registered.erase k }

def put (c : Contents K V) (k : K) (v : V) (evicted : List K) : Contents K V :=
  { c with
    entries := eraseEach (c.entries.insert k ⟨k, v⟩) evicted
    registered := c.registered.insert k v }

def empty : Contents K V := ⟨∅, .empty, [], .empty⟩

/-- Every request but a clear begins with the entries of the reported keys. -/
def run (inUse : V → Bool) (pinCount : Nat) (evicted : List K) (c : Contents K V) :
    Request K V → Contents K V
  | .put k v => c.drain.put k v evicted
  | .get k => c.drain.lookedUp inUse pinCount k
  | .remove k => c.drain.remove k
  | .size => c.drain
  | .clear => .empty

def isFree (inUse : V → Bool) (c : Contents K V) (v : V) : Bool :=
  !(inUse v || c.pins.contains v) && c.registered.count v == 1

/-- A pass of the queue releases the free values and reports their keys. -/
def collect (inUse : V → Bool) (c : Contents K V) : Contents K V :=
  { c with
    registered := c.registered.filter fun v => !c.isFree inUse v
    pending := c.pending ++ (c.registered.entries.filter fun _ v => c.isFree inUse v).keys }

end Contents

theorem drain_contents (t : Tier K V) : t.drain.cache.contents = t.contents.drain := by
  have h := congrArg Store.entries (removeAll_inner t.under t.queue.pending)
  exact congrArg (fun entries => Contents.mk entries t.queue.registered [] t.pins) h

theorem put_contents (t : Tier K V) (k : K) (v : V) :
    (t.put k v).cache.contents = t.contents.drain.put k v (t.under.evictions k) := by
  have h := Stack.put_inner () t.drain.cache.under k (⟨k, v⟩ : Handle K V)
  have he := (congrArg Store.entries h).trans (Store.entries_removeEach _ _)
  have hevict : t.drain.cache.under.evictions k = t.under.evictions k :=
    removeAll_evictions t.under t.queue.pending k
  rw [← drain_contents, ← hevict]
  exact congrArg (fun entries => Contents.mk entries _ _ _) he

theorem get_contents (inUse : V → Bool) (t : Tier K V) (k : K) :
    (t.get inUse k).cache.contents = t.contents.drain.lookedUp inUse t.pinCount k ∧
      (t.get inUse k).answer = t.contents.drain.find inUse k := by
  rw [← drain_contents]
  obtain ⟨hinner, hfound⟩ := Stack.get_inner () t.drain.cache.under k
  let looked : Tier K V := { t.drain.cache with under := (t.drain.cache.under.get () k).cache }
  have hlooked : looked.contents = t.drain.cache.contents :=
    congrArg (fun store => Contents.mk (Store.entries store) _ _ _) hinner
  have hgone := congrArg Store.entries (Stack.remove_inner () looked.under k).1
  have heq : t.get inUse k =
      match (t.drain.cache.under.get () k).answer with
      | none => ⟨looked, none, _⟩
      | some handle =>
        if looked.isAlive inUse handle.referent then
          ⟨looked.pin handle.referent, some handle.referent, _⟩
        else ⟨{ looked with under := (looked.under.remove () k).cache }, none, _⟩ := rfl
  have hf : (t.drain.cache.under.get () k).answer = t.drain.cache.contents.entries[k]? := hfound
  rw [heq, hf, Contents.lookedUp, Contents.find, ← hlooked]
  cases looked.contents.entries[k]? with
  | none => exact ⟨rfl, rfl⟩
  | some handle =>
    have hl : looked.isAlive inUse handle.referent =
      looked.contents.isAlive inUse handle.referent := rfl
    dsimp only
    rw [hl, Option.map_some, Option.filter_some]
    split
    · exact ⟨rfl, rfl⟩
    · exact ⟨congrArg (fun entries => Contents.mk entries _ _ _) hgone, rfl⟩

theorem remove_contents (inUse : V → Bool) (t : Tier K V) (k : K) :
    (t.remove inUse k).cache.contents = t.contents.drain.remove k ∧
      (t.remove inUse k).answer = t.contents.drain.find inUse k := by
  rw [← drain_contents]
  obtain ⟨hinner, hremoved⟩ := Stack.remove_inner () t.drain.cache.under k
  refine ⟨congrArg (fun store => Contents.mk (Store.entries store) _ _ _) hinner, ?_⟩
  exact congrArg (fun removed : Option (Handle K V) => (removed.map Handle.referent).filter
    (t.drain.cache.contents.isAlive inUse)) hremoved

theorem size_contents (t : Tier K V) :
    t.size.cache.contents = t.contents.drain ∧ t.size.answer = t.contents.drain.entries.size := by
  obtain ⟨hinner, hsize⟩ := Stack.size_inner () t.drain.cache.under
  have he := congrArg Store.entries hinner
  rw [← drain_contents]
  exact ⟨congrArg (fun entries => Contents.mk entries _ _ _) he, hsize⟩

theorem clear_contents (t : Tier K V) : t.clear.cache.contents = .empty := by
  have he := congrArg Store.entries
    (Stack.clear_inner () ({ t with pins := .empty } : Tier K V).drain.cache.under)
  exact congrArg (fun entries => Contents.mk entries _ _ _) he

theorem run_contents (inUse : V → Bool) (t : Tier K V) (request : Request K V) :
    (request.run inUse t).cache.contents =
      t.contents.run inUse t.pinCount (t.under.evictedBy request) request := by
  cases request with
  | put k v => exact put_contents t k v
  | get k => exact (get_contents inUse t k).1
  | remove k => exact (remove_contents inUse t k).1
  | size => exact (size_contents t).1
  | clear => exact clear_contents t

/-- What each removal keeps true, several removals keep true. -/
theorem contents_removeEach {P : Contents K V → Prop} {keys : List K}
    (hP : ∀ k ∈ keys, ∀ c, P c → P (c.drain.remove k)) {t : Tier K V} (h : P t.contents)
    (inUse : V → Bool) : P (Cache.removeEach inUse t keys).contents := by
  induction keys generalizing t with
  | nil => exact h
  | cons k keys ih =>
    obtain ⟨hk, hkeys⟩ := List.forall_mem_cons.mp hP
    apply ih hkeys (t := (t.remove inUse k).cache)
    rw [(remove_contents inUse t k).1]
    exact hk t.contents h

end ResultCache.Tier
