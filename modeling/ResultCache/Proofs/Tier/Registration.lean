import ResultCache.Proofs.Tier.Backing

/-! How the three tables of a weak tier fit together: the stored handles, the registrations and the
reported keys. What is registered is what the handle leads to, and what is reported is gone. -/
namespace ResultCache.Tier
variable {K V : Type} [BEq K] [Hashable K] [BEq V] [Hashable V]

/-- No key is reported twice or while it is registered, a registered key has its value behind its handle
if it has one, and a handle of a reported key leads to a value that is gone. -/
structure Contents.Coherent (inUse : V → Bool) (c : Contents K V) : Prop where
  distinct : c.pending.Pairwise fun k l => (k == l) = false
  apart : ∀ k, c.pending.contains k = true → c.registered.get? k = none
  agree : ∀ k handle v, c.entries[k]? = some handle → c.registered.get? k = some v → handle.referent = v
  dead : ∀ k handle, c.pending.contains k = true → c.entries[k]? = some handle →
    c.isAlive inUse handle.referent = false

namespace Contents
variable {inUse : V → Bool} {c : Contents K V}

/-- With nothing reported, it is enough that handles and registrations agree. -/
theorem Coherent.of_drained (hp : c.pending = [])
    (agree : ∀ k handle v, c.entries[k]? = some handle → c.registered.get? k = some v →
      handle.referent = v) : c.Coherent inUse := by
  refine ⟨?_, ?_, agree, ?_⟩
  · rw [hp]
    exact .nil
  · intro k hk
    rw [hp] at hk
    cases hk
  · intro k handle hk
    rw [hp] at hk
    cases hk

/-- What is in use may change, as long as no stored value comes back to life. -/
theorem Coherent.world (h : c.Coherent inUse) {world : V → Bool}
    (hw : ∀ (k : K) (handle : Handle K V), c.entries[k]? = some handle → world handle.referent = true →
      c.isAlive inUse handle.referent = true) : c.Coherent world := by
  refine ⟨h.distinct, h.apart, h.agree, fun k handle hk he => ?_⟩
  have hdead := h.dead k handle hk he
  rw [isAlive, Bool.or_assoc] at hdead ⊢
  rw [Bool.or_eq_false_iff] at hdead ⊢
  refine ⟨Bool.eq_false_iff.mpr fun hu => ?_, hdead.2⟩
  have halive := hw k handle he hu
  rw [h.dead k handle hk he] at halive
  cases halive

theorem pending_run (inUse : V → Bool) (pinCount : Nat) (evicted : List K) (c : Contents K V)
    (request : Request K V) : (c.run inUse pinCount evicted request).pending = [] := by
  cases request with
  | put k v => rfl
  | get k =>
    rw [run, lookedUp]
    split
    · rfl
    · split <;> rfl
  | remove k => rfl
  | size => rfl
  | clear => rfl

/-- Every registered or reported key has a stored handle. -/
def Listed (c : Contents K V) : Prop :=
  ∀ k, (c.registered.get? k).isSome = true ∨ c.pending.contains k = true →
    c.entries[k]?.isSome = true

theorem Listed.empty : (empty : Contents K V).Listed := by
  rintro k (hk | hk)
  · simp [Contents.empty] at hk
  · cases hk

variable [EquivBEq K] [LawfulHashable K]

/-- A request registers no value but the one it puts. -/
theorem registered_run {world : V → Bool} {pinCount : Nat} {evicted : List K} {request : Request K V}
    {k : K} {v : V} (h : (c.run world pinCount evicted request).registered.get? k = some v) :
    c.registered.get? k = some v ∨ ∃ k', request = .put k' v := by
  cases request with
  | put k' v' =>
    change (c.registered.insert k' v').get? k = some v at h
    rw [Registry.get?_insert] at h
    split at h
    · exact .inr ⟨k', by rw [Option.some.inj h]⟩
    · exact .inl h
  | get k' =>
    left
    rw [run, lookedUp] at h
    split at h
    · exact h
    · split at h <;> exact h
  | remove k' =>
    change (c.registered.erase k').get? k = some v at h
    rw [Registry.get?_erase] at h
    split at h
    · cases h
    · exact .inl h
  | size => exact .inl h
  | clear =>
    simp [run, empty] at h

/-- A request leaves nothing reported, and stores and registers a value together. -/
theorem Coherent.run (h : c.Coherent inUse) (world world' : V → Bool) (pinCount : Nat) (evicted : List K)
    (request : Request K V) : (c.run world pinCount evicted request).Coherent world' := by
  refine .of_drained (pending_run world pinCount evicted c request) ?_
  have hdrain : ∀ k handle v, c.drain.entries[k]? = some handle → c.registered.get? k = some v →
      handle.referent = v :=
    fun k handle v he hr => h.agree k handle v (Store.some_of_eraseEach he).2 hr
  cases request with
  | put k v =>
    intro k' handle v' he hr
    change (c.registered.insert k v).get? k' = some v' at hr
    rw [Registry.get?_insert] at hr
    rcases Store.some_of_insert (Store.some_of_eraseEach he).2 with ⟨hk, rfl⟩ | ⟨hk, he'⟩
    · rw [if_pos hk] at hr
      exact Option.some.inj hr
    · rw [hk] at hr
      exact hdrain k' handle v' he' hr
  | get k =>
    rw [Contents.run, lookedUp]
    split
    · exact hdrain
    · split
      · exact hdrain
      · exact fun k' handle v he hr => hdrain k' handle v (Store.some_of_erase he).2 hr
  | remove k =>
    intro k' handle v he hr
    obtain ⟨hk, he'⟩ := Store.some_of_erase he
    change (c.registered.erase k).get? k' = some v at hr
    rw [Registry.get?_erase, hk] at hr
    exact hdrain k' handle v he' hr
  | size => exact hdrain
  | clear =>
    intro k handle v he
    simp [Contents.run, empty] at he

private theorem Listed.drain (h : c.Listed) (hc : c.Coherent inUse) {k : K}
    (hk : (c.registered.get? k).isSome = true) : c.drain.entries[k]?.isSome = true := by
  have hnot : c.pending.contains k = false := by
    rw [Bool.eq_false_iff]
    intro hp
    rw [hc.apart k hp] at hk
    cases hk
  rw [Contents.drain, Store.getElem?_eraseEach hnot]
  exact h k (.inl hk)

/-- What draining drops could not have been found. -/
theorem Coherent.drain_keeps (h : c.Coherent inUse) {k : K} {handle : Handle K V}
    (he : c.entries[k]? = some handle) (ha : c.isAlive inUse handle.referent = true) :
    c.drain.entries[k]? = some handle := by
  have hnot : c.pending.contains k = false := by
    rw [Bool.eq_false_iff]
    intro hp
    rw [h.dead k handle hp he] at ha
    cases ha
  rw [drain, Store.getElem?_eraseEach hnot]
  exact he

variable [LawfulBEq V]

private theorem isAlive_mono {c' : Contents K V} (hpins : c'.pins = c.pins)
    (hreg : ∀ k v, c'.registered.get? k = some v → c.registered.get? k = some v) {v : V}
    (h : c.isAlive inUse v = false) : c'.isAlive inUse v = false := by
  have hcontains : c'.registered.contains v = true → c.registered.contains v = true := by
    rw [Registry.contains_iff, Registry.contains_iff]
    exact fun ⟨k, hk⟩ => ⟨k, hreg k v hk⟩
  rw [isAlive, Bool.or_eq_false_iff] at h ⊢
  rw [hpins]
  refine ⟨h.1, Bool.eq_false_iff.mpr fun hc => ?_⟩
  rw [hcontains hc] at h
  cases h.2

/-- Taking keys and registrations out of the queue does no harm. -/
theorem Coherent.shrink {c' : Contents K V} (h : c.Coherent inUse) (he : c'.entries = c.entries)
    (hpins : c'.pins = c.pins) (hpending : c'.pending.Sublist c.pending)
    (hreg : ∀ k v, c'.registered.get? k = some v → c.registered.get? k = some v) :
    c'.Coherent inUse := by
  have hreported : ∀ k, c'.pending.contains k = true → c.pending.contains k = true := by
    intro k hk
    obtain ⟨l, hl, hkl⟩ := List.contains_iff_exists_mem_beq.mp hk
    exact List.contains_iff_exists_mem_beq.mpr ⟨l, hpending.subset hl, hkl⟩
  refine ⟨h.distinct.sublist hpending, ?_, ?_, ?_⟩
  · intro k hk
    rw [Option.eq_none_iff_forall_ne_some]
    intro v hv
    cases (h.apart k (hreported k hk)).symm.trans (hreg k v hv)
  · intro k handle v hs hv
    rw [he] at hs
    exact h.agree k handle v hs (hreg k v hv)
  · intro k handle hk hs
    rw [he] at hs
    exact isAlive_mono hpins hreg (h.dead k handle (hreported k hk) hs)

/-- A pass reports keys whose values it has just made dead. -/
theorem Coherent.collect (h : c.Coherent inUse) : (c.collect inUse).Coherent inUse := by
  have hreg : ∀ k v, (c.collect inUse).registered.get? k = some v → c.registered.get? k = some v :=
    fun k v hv => (registered_collect_iff.mp hv).1
  have hreleased : ∀ k, (c.collect inUse).pending.contains k = true →
      c.pending.contains k = true ∨ ∃ v, c.registered.get? k = some v ∧ c.isFree inUse v = true := by
    intro k hk
    rw [pending_collect, Bool.or_eq_true, Option.any_eq_true] at hk
    exact hk
  refine ⟨?_, ?_, ?_, ?_⟩
  · refine List.pairwise_append.mpr ⟨h.distinct, Std.HashMap.distinct_keys, fun k hk l hl => ?_⟩
    rw [Bool.eq_false_iff]
    intro hkl
    have hnone := h.apart l (List.contains_iff_exists_mem_beq.mpr ⟨k, hk, BEq.symm hkl⟩)
    have hl' := List.contains_iff_exists_mem_beq.mpr ⟨l, hl, BEq.rfl⟩
    rw [contains_released, hnone] at hl'
    cases hl'
  · intro k hk
    rw [Option.eq_none_iff_forall_ne_some]
    intro v hv
    rcases hreleased k hk with hp | ⟨w, hw, hf⟩
    · cases (h.apart k hp).symm.trans (hreg k v hv)
    · rw [registered_collect, hw, Option.filter_some, hf] at hv
      cases hv
  · exact fun k handle v he hv => h.agree k handle v he (hreg k v hv)
  · intro k handle hk he
    rcases hreleased k hk with hp | ⟨w, hw, hf⟩
    · exact isAlive_mono (show (c.collect inUse).pins = c.pins from rfl) hreg (h.dead k handle hp he)
    · rw [h.agree k handle w he hw]
      exact isAlive_collect hf

/-- As long as no layer evicts an entry beneath the tier, a request drops a registration only together
with its entry. -/
theorem Listed.run (h : c.Listed) (hc : c.Coherent inUse) (hb : c.Backed) (world : V → Bool)
    (pinCount : Nat) (request : Request K V) : (c.run world pinCount [] request).Listed := by
  rintro j (hj | hj)
  · cases request with
    | put k v =>
      change ((c.registered.insert k v).get? j).isSome = true at hj
      change (c.drain.entries.insert k ⟨k, v⟩)[j]?.isSome = true
      rw [Registry.get?_insert] at hj
      rw [Std.HashMap.getElem?_insert]
      split
      · rfl
      · next hk =>
        rw [if_neg hk] at hj
        exact h.drain hc hj
    | get k =>
      have halive : ∀ handle, c.drain.entries[k]? = some handle →
          c.drain.isAlive world handle.referent = true := fun _ he => hb.isAlive world he
      rw [Contents.run, lookedUp] at hj ⊢
      split at hj
      · exact h.drain hc hj
      · next handle he =>
        rw [if_pos (halive handle he)] at hj ⊢
        exact h.drain hc hj
    | remove k =>
      change ((c.registered.erase k).get? j).isSome = true at hj
      change (c.drain.entries.erase k)[j]?.isSome = true
      rw [Registry.get?_erase] at hj
      rw [Std.HashMap.getElem?_erase]
      split at hj
      · cases hj
      · next hk =>
        rw [if_neg hk]
        exact h.drain hc hj
    | size => exact h.drain hc hj
    | clear => exact Listed.empty j (.inl hj)
  · rw [pending_run] at hj
    cases hj

theorem Listed.collect (h : c.Listed) (inUse : V → Bool) : (c.collect inUse).Listed := by
  rintro k (hk | hk)
  · obtain ⟨v, hv⟩ := Option.isSome_iff_exists.mp hk
    exact h k (.inl (by rw [(registered_collect_iff.mp hv).1]; rfl))
  · rw [pending_collect, Bool.or_eq_true, Option.any_eq_true] at hk
    rcases hk with hp | ⟨v, hv, -⟩
    · exact h k (.inr hp)
    · exact h k (.inl (by rw [hv]; rfl))

end Contents
end ResultCache.Tier
