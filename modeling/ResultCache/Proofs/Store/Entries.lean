import ResultCache.Proofs.Keys
import ResultCache.Proofs.Stack.Inner
import ResultCache.Store

/-! What is found among the entries of a store after keys were put in and taken out. -/
namespace ResultCache.Store
variable {K V : Type} [BEq K] [Hashable K]

def eraseEach (m : Std.HashMap K V) (keys : List K) : Std.HashMap K V :=
  keys.foldl Std.HashMap.erase m

def dropEach (s : Store K V) (keys : List K) : Store K V :=
  { s with entries := eraseEach s.entries keys }

theorem dropEach_append (s : Store K V) (keys more : List K) :
    s.dropEach (keys ++ more) = (s.dropEach keys).dropEach more := by
  rw [dropEach, eraseEach, List.foldl_append]
  rfl

theorem entries_removeEach (s : Store K V) (keys : List K) :
    (Cache.removeEach () s keys).entries = eraseEach s.entries keys := by
  induction keys generalizing s with
  | nil => rfl
  | cons k keys ih => exact ih _

def Has (s : Store K V) (k : K) : Prop := ∃ v, s.entries[k]? = some v

variable [EquivBEq K] [LawfulHashable K] {m : Std.HashMap K V} {k k' : K} {v v' : V}

theorem some_of_insert (h : (m.insert k v)[k']? = some v') :
    (k == k') = true ∧ v' = v ∨ (k == k') = false ∧ m[k']? = some v' := by
  rw [Std.HashMap.getElem?_insert] at h
  split at h
  · next hk => exact .inl ⟨hk, (Option.some.inj h).symm⟩
  · next hk => exact .inr ⟨Bool.eq_false_iff.mpr hk, h⟩

theorem some_of_erase (h : (m.erase k)[k']? = some v') : (k == k') = false ∧ m[k']? = some v' := by
  rw [Std.HashMap.getElem?_erase] at h
  split at h
  · cases h
  · next hk => exact ⟨Bool.eq_false_iff.mpr hk, h⟩

theorem some_of_eraseEach {keys : List K} (h : (eraseEach m keys)[k]? = some v) :
    keys.contains k = false ∧ m[k]? = some v := by
  induction keys generalizing m with
  | nil => exact ⟨rfl, h⟩
  | cons e keys ih =>
    obtain ⟨hkeys, he⟩ := ih h
    obtain ⟨hk, hm⟩ := some_of_erase he
    rw [List.contains_cons, hkeys, BEq.comm, hk]
    exact ⟨rfl, hm⟩

theorem getElem?_eraseEach {keys : List K} (h : keys.contains k = false) :
    (eraseEach m keys)[k]? = m[k]? := by
  induction keys generalizing m with
  | nil => rfl
  | cons e keys ih =>
    rw [List.contains_cons, Bool.or_eq_false_iff, BEq.comm] at h
    have hrest : (eraseEach (m.erase e) keys)[k]? = (m.erase e)[k]? := ih h.2
    rw [eraseEach, List.foldl_cons]
    refine hrest.trans ?_
    rw [Std.HashMap.getElem?_erase, h.1, if_neg Bool.false_ne_true]

theorem exists_of_mem_keys (h : k ∈ m.keys) : ∃ v, m[k]? = some v := by
  have hk : m.keys.contains k = true := List.contains_iff_exists_mem_beq.mpr ⟨k, h, BEq.rfl⟩
  rw [Std.HashMap.contains_keys, Std.HashMap.contains_eq_isSome_getElem?] at hk
  exact Option.isSome_iff_exists.mp hk

def Within (s t : Store K V) : Prop := ∀ (k : K) (v : V), s.entries[k]? = some v → t.entries[k]? = some v

/-- A request puts in and takes out the same of both stores. -/
theorem Within.run {s t : Store K V} (h : s.Within t) (request : Request K V) :
    (request.run () s).cache.Within (request.run () t).cache := by
  intro k v hv
  cases request with
  | put k' v' =>
    change (t.entries.insert k' v')[k]? = some v
    rw [Std.HashMap.getElem?_insert]
    rcases some_of_insert hv with ⟨hk, rfl⟩ | ⟨hk, hold⟩
    · rw [if_pos hk]
    · rw [hk]
      exact h k v hold
  | remove k' =>
    change (t.entries.erase k')[k]? = some v
    obtain ⟨hk, hold⟩ := some_of_erase hv
    rw [Std.HashMap.getElem?_erase, hk]
    exact h k v hold
  | clear => cases Std.HashMap.getElem?_empty.symm.trans hv
  | _ => exact h k v hv

omit [EquivBEq K] [LawfulHashable K] in
theorem Within.getElem?_eq {s t : Store K V} (h : s.Within t) (h' : t.Within s) (k : K) :
    s.entries[k]? = t.entries[k]? := Option.ext fun v => ⟨h k v, h' k v⟩

theorem Within.size_le {s t : Store K V} (h : s.Within t) : s.entries.size ≤ t.entries.size := by
  rw [← Std.HashMap.length_keys, ← Std.HashMap.length_keys]
  refine length_le_of_contains Std.HashMap.distinct_keys fun k hk => ?_
  obtain ⟨v, hv⟩ := exists_of_mem_keys hk
  rw [Std.HashMap.contains_keys, Std.HashMap.contains_eq_isSome_getElem?, h k v hv]
  rfl

/-- What layers leave in a store was left there by the request itself. -/
theorem some_of_run_inner {stack : Stack (Store K V) K} {request : Request K V}
    (h : (request.run () stack).cache.inner.entries[k]? = some v) :
    (request.run () stack.inner).cache.entries[k]? = some v := by
  rw [(Stack.run_inner () stack request).1, entries_removeEach] at h
  exact (some_of_eraseEach h).2

/-- Layers that do not evict a key leave its entry to the request. -/
theorem getElem?_run_inner {stack : Stack (Store K V) K} {request : Request K V}
    (h : ∀ e ∈ stack.evictedBy request, (e == k) = false) :
    (request.run () stack).cache.inner.entries[k]? = (request.run () stack.inner).cache.entries[k]? := by
  rw [(Stack.run_inner () stack request).1, entries_removeEach, getElem?_eraseEach (contains_eq_false h)]

end ResultCache.Store
