import ResultCache.Proofs.Cache.Simulation
import ResultCache.Proofs.Tier.Collection

/-! Why no lookup meets a handle whose value is gone: the queue releases a value only when it reports
the key, and the entries of reported keys are dropped before the lookup. -/
namespace ResultCache.Tier
variable {K V : Type} [BEq K] [Hashable K] [BEq V] [Hashable V]

/-- Each stored handle has its value registered under the same key, or its key is reported. -/
def Contents.Backed (c : Contents K V) : Prop :=
  ∀ k handle, c.entries[k]? = some handle →
    c.pending.contains k = true ∨ c.registered.get? k = some handle.referent

namespace Contents

theorem Backed.empty : (empty : Contents K V).Backed := by
  intro k handle h
  simp [Contents.empty] at h

variable [EquivBEq K] [LawfulHashable K] {c : Contents K V}

/-- Once the reported entries are gone, every stored handle has its value registered. -/
theorem Backed.registered (hc : c.Backed) {k : K} {handle : Handle K V}
    (h : c.drain.entries[k]? = some handle) : c.registered.get? k = some handle.referent := by
  obtain ⟨hk, he⟩ := Store.some_of_eraseEach h
  exact (hc k handle he).resolve_left fun hp => Bool.false_ne_true (hk.symm.trans hp)

theorem Backed.drain (hc : c.Backed) : c.drain.Backed :=
  fun _ _ h => .inr (hc.registered h)

theorem Backed.put (hc : c.Backed) (hp : c.pending = []) (k : K) (v : V) (evicted : List K) :
    (c.put k v evicted).Backed := by
  intro k' handle h
  right
  rw [Contents.put, Registry.get?_insert]
  rcases Store.some_of_insert (Store.some_of_eraseEach h).2 with ⟨hk, rfl⟩ | ⟨hk, he⟩
  · rw [hk]
    rfl
  · rw [hk]
    exact (hc k' handle he).resolve_left (by rw [hp]; exact Bool.false_ne_true)

theorem Backed.remove (hc : c.Backed) (k : K) : (c.remove k).Backed := by
  intro k' handle h
  obtain ⟨hk, he⟩ := Store.some_of_erase h
  rw [Contents.remove, Registry.get?_erase, hk]
  exact hc k' handle he

theorem Backed.lookedUp (hc : c.Backed) (inUse : V → Bool) (pinCount : Nat) (k : K) :
    (c.lookedUp inUse pinCount k).Backed := by
  rw [Contents.lookedUp]
  split
  · exact hc
  · split
    · exact hc
    · exact fun k' handle h => hc k' handle (Store.some_of_erase h).2

theorem Backed.run (hc : c.Backed) (inUse : V → Bool) (pinCount : Nat) (evicted : List K)
    (request : Request K V) : (c.run inUse pinCount evicted request).Backed := by
  cases request with
  | put k v => exact hc.drain.put rfl k v evicted
  | get k => exact hc.drain.lookedUp inUse pinCount k
  | remove k => exact hc.drain.remove k
  | size => exact hc.drain
  | clear => exact .empty

/-- What a pass no longer owns it reports. -/
theorem Backed.collect (hc : c.Backed) (inUse : V → Bool) : (c.collect inUse).Backed := by
  intro k handle he
  rw [pending_collect, registered_collect, Bool.or_eq_true]
  rcases hc k handle he with hp | hr
  · exact .inl (.inl hp)
  · rw [hr]
    cases hf : c.isFree inUse handle.referent with
    | true => exact .inl (.inr hf)
    | false => exact .inr (by rw [Option.filter_some, hf]; rfl)

variable [EquivBEq V] [LawfulHashable V]

theorem Backed.isAlive (hc : c.Backed) (inUse : V → Bool) {k : K} {handle : Handle K V}
    (h : c.drain.entries[k]? = some handle) : c.drain.isAlive inUse handle.referent = true := by
  rw [Contents.isAlive, Bool.or_eq_true]
  exact .inr (Registry.contains_of_get (hc.registered h))

/-- So all that is stored is found. -/
theorem Backed.find (hc : c.Backed) (inUse : V → Bool) (k : K) :
    c.drain.find inUse k = c.drain.entries[k]?.map Handle.referent := by
  rw [Contents.find]
  cases h : c.drain.entries[k]? with
  | none => rfl
  | some handle => rw [Option.map_some, Option.filter_some, if_pos (hc.isAlive inUse h)]

end Contents

variable [EquivBEq K] [LawfulHashable K]

theorem backed_preserved (inUse : V → Bool) :
    Cache.Preserves (fun t : Tier K V => t.contents.Backed) inUse where
  put {t} h k v := put_contents t k v ▸ h.run inUse t.pinCount _ (.put k v)
  get {t} h k := (get_contents inUse t k).1 ▸ h.run inUse t.pinCount [] (.get k)
  remove {t} h k := (remove_contents inUse t k).1 ▸ h.run inUse t.pinCount [] (.remove k)
  size {t} h := (size_contents t).1 ▸ h.run inUse t.pinCount [] .size
  clear {t} h := clear_contents t ▸ h.run inUse t.pinCount [] .clear

/-- A lookup meets no handle whose value is gone. -/
theorem isAlive_of_found [EquivBEq V] [LawfulHashable V] {t : Tier K V} (h : t.contents.Backed)
    (inUse : V → Bool) {k : K} {handle : Handle K V}
    (hg : (t.drain.cache.under.get () k).answer = some handle) :
    t.drain.cache.isAlive inUse handle.referent = true := by
  have he : t.drain.cache.contents.entries[k]? = some handle :=
    (Stack.get_inner () t.drain.cache.under k).2.symm.trans hg
  rw [drain_contents] at he
  have ha := h.isAlive inUse he
  rw [← drain_contents] at ha
  exact ha

end ResultCache.Tier
