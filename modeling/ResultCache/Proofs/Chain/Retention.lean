import ResultCache.Proofs.Chain.EachRecency
import ResultCache.Proofs.Tier.Retention

/-! How long a chain keeps a value under a key: until a call ends it, a recency layer evicts the key, or a
pass of the queue finds no other owner. -/
namespace ResultCache
variable {K V : Type} [BEq K] [Hashable K]

private theorem Store.getElem?_run [EquivBEq K] [LawfulHashable K] {s : Store K V} {k : K} {v : V}
    (h : s.entries[k]? = some v) (request : Request K V) (hends : request.ends k = false) :
    (request.run () s).cache.entries[k]? = some v := by
  cases request with
  | put k' v' =>
    change (k' == k) = false at hends
    change (s.entries.insert k' v')[k]? = some v
    rw [Std.HashMap.getElem?_insert, hends]
    exact h
  | get k' => exact h
  | remove k' =>
    change (k' == k) = false at hends
    change (s.entries.erase k')[k]? = some v
    rw [Std.HashMap.getElem?_erase, hends]
    exact h
  | size => exact h
  | clear => cases hends

namespace Chain
variable [BEq V] [Hashable V]

/-- A value is stored under a key, and a weak tier has it registered. -/
def Retains (k : K) (v : V) : Chain K V → Prop
  | strong stack => stack.inner.entries[k]? = some v
  | weak stack => stack.inner.contents.Holds k v

theorem Retains.mapTier {c : Chain K V} {k : K} {v : V} (h : c.Retains k v) {f : Tier K V → Tier K V}
    (hf : ∀ t, c.tier? = some t → t.contents.Holds k v → (f t).contents.Holds k v) :
    (c.mapTier f).Retains k v := by
  cases c with
  | strong stack => exact h
  | weak stack =>
    change (stack.mapInner f).inner.contents.Holds k v
    rw [Stack.inner_mapInner]
    exact hf stack.inner rfl h

/-- The keys that the layers drop in the course of a request, beneath a weak tier and around it. -/
def evictedBy (request : Request K V) : Chain K V → List K
  | strong stack => stack.evictedBy request
  | weak stack => stack.inner.under.evictedBy request ++ stack.evictedBy request

/-- What holds of the keys that each layer drops holds of all evicted keys. -/
theorem EachRecency.evictedBy {P : Nat → Recency K → Prop} {Q : K → Prop} {c : Chain K V}
    (h : c.EachRecency P) {request : Request K V}
    (hQ : ∀ k v, request = .put k v → ∀ capacity recency, P capacity recency →
      ∀ e ∈ (recency.track capacity k).1, Q e) : ∀ e ∈ c.evictedBy request, Q e := by
  cases request with
  | put k v =>
    cases c with
    | strong stack => exact Stack.EachRecency.evictions h (hQ k v rfl)
    | weak stack =>
      exact List.forall_mem_append.mpr ⟨h.2.evictions (hQ k v rfl), h.1.evictions (hQ k v rfl)⟩
  | _ => cases c <;> exact fun e he => (List.not_mem_nil he).elim

variable [EquivBEq K] [LawfulHashable K] {c : Chain K V} {k k' : K} {v : V}

variable [LawfulBEq V]

private theorem evict_weak {inUse : V → Bool} {stack : Stack (Tier K V) K} {request : Request K V}
    (hev : ∀ e ∈ stack.evictedBy request, (e == k) = false)
    (h : (request.run inUse stack.inner).cache.contents.Holds k v) :
    (request.run inUse stack).cache.inner.contents.Holds k v := by
  rw [(Stack.run_inner inUse stack request).1]
  exact Tier.contents_removeEach
    (fun j hj c hc => hc.run inUse 0 List.contains_nil (.remove j) (hev j hj)) h inUse

/-- A request that does not end a key retains its value if no layer evicts the key. -/
theorem Retains.run (h : c.Retains k v) (inUse : V → Bool) (request : Request K V)
    (hends : request.ends k = false) (hev : ∀ e ∈ c.evictedBy request, (e == k) = false) :
    (request.run inUse c).cache.Retains k v := by
  cases c with
  | strong stack =>
    rw [run_strong, Retains, Store.getElem?_run_inner hev]
    exact Store.getElem?_run h request hends
  | weak stack =>
    obtain ⟨hbeneath, haround⟩ := List.forall_mem_append.mp hev
    have htier : (request.run inUse stack.inner).cache.contents.Holds k v := by
      rw [Tier.run_contents]
      exact h.run inUse _ (contains_eq_false hbeneath) request hends
    rw [run_weak]
    exact evict_weak haround htier

/-- A put is retained if its own key is not evicted for it. -/
theorem Retains.of_put (hk : (k' == k) = true) (inUse : V → Bool)
    (hev : ∀ e ∈ c.evictedBy (.put k' v), (e == k) = false) :
    (c.put inUse k' v).cache.Retains k v := by
  cases c with
  | strong stack =>
    have hstore : ((.put k' v : Request K V).run () stack.inner).cache.entries[k]? = some v := by
      change (stack.inner.entries.insert k' v)[k]? = some v
      rw [Std.HashMap.getElem?_insert, if_pos hk]
    exact (Store.getElem?_run_inner hev).trans hstore
  | weak stack =>
    obtain ⟨hbeneath, haround⟩ := List.forall_mem_append.mp hev
    have htier : ((.put k' v : Request K V).run inUse stack.inner).cache.contents.Holds k v := by
      rw [Tier.run_contents]
      exact .of_put hk inUse _ (contains_eq_false hbeneath)
    exact evict_weak haround htier

/-- What is retained is found. -/
theorem Retains.get (h : c.Retains k v) (inUse : V → Bool) (hk : (k' == k) = true) :
    (c.get inUse k').answer = some v := by
  cases c with
  | strong stack =>
    refine (Stack.get_inner () stack k').2.trans ?_
    change stack.inner.entries[k']? = some v
    rw [Std.HashMap.getElem?_congr hk]
    exact h
  | weak stack =>
    refine (Stack.get_inner inUse stack k').2.trans ?_
    exact (Tier.get_contents inUse stack.inner k').2.trans (h.find inUse hk)

end Chain
end ResultCache
