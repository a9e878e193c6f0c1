import ResultCache.Proofs.Recency.Nesting
import ResultCache.Proofs.Recency.Retention
import ResultCache.Proofs.Stack.Coverage
import ResultCache.Proofs.Stack.RecencyLayer

/-! Two stacks over stores that get the same requests. If one of them has a recency layer with no more
places than any layer of the other has, it never holds a key that the other one has evicted. -/
namespace ResultCache.Stack
open Recency (Inside)

section
variable {σ ω K V : Type} [BEq K] [Hashable K] {P Q : Nat → Recency K → Prop} {s : Stack σ K}

/-- Some recency layer of the stack has a property, which may depend on its capacity. -/
def AnyRecency (P : Nat → Recency K → Prop) : Stack σ K → Prop
  | core _ => False
  | lru capacity recency under => P capacity recency ∨ under.AnyRecency P
  | logging _ under => under.AnyRecency P

theorem anyRecency_iff :
    s.AnyRecency P ↔ ¬ s.EachRecency fun capacity recency => ¬ P capacity recency := by
  induction s with
  | core cache => simp [AnyRecency, EachRecency]
  | lru capacity recency under ih => rw [AnyRecency, EachRecency, ih, not_and_or, not_not]
  | logging stats under ih => exact ih

namespace AnyRecency

theorem and_each (h : s.AnyRecency P) (hQ : s.EachRecency Q) :
    ∃ capacity recency, P capacity recency ∧ Q capacity recency := by
  by_contra hnone
  exact anyRecency_iff.mp h (hQ.imp fun capacity recency hq hp => hnone ⟨capacity, recency, hp, hq⟩)

theorem withLayers {layers : List Layer} {capacity : Nat} (hc : .lru capacity ∈ layers)
    (hP : P capacity .empty) : (s.withLayers layers).AnyRecency P :=
  anyRecency_iff.mpr fun hnone => (EachRecency.withLayers_iff.mp hnone).2 capacity hc hP

theorem change [Cache σ ω K V] (h : s.AnyRecency P) (world : ω) (request : Request K V)
    (hQ : ∀ capacity recency, P capacity recency → Q capacity (recency.after capacity request)) :
    (request.run world s).cache.AnyRecency Q := by
  refine anyRecency_iff.mpr fun hnone => anyRecency_iff.mp h ?_
  exact ((EachRecency.run_iff world request).mp hnone).imp fun capacity recency hq hp =>
    hq (hQ capacity recency hp)

end AnyRecency
end

variable {K V : Type} [BEq K] [Hashable K] {s t : Stack (Store K V) K}

/-- A stack holds no more than another one: a layer of it stands inside every layer of the other, and its
layers track all that it holds. -/
structure Below (s t : Stack (Store K V) K) : Prop where
  nests : s.AnyRecency fun capacity recency => t.EachRecency (Inside capacity recency)
  covers : s.Covers Store.Has
  entries : s.inner.Within t.inner

namespace Below

theorem withLayers (name name' : String) {layers layers' : List Layer} {capacity : Nat}
    (hc : .lru capacity ∈ layers) (hle : ∀ capacity', .lru capacity' ∈ layers' → capacity ≤ capacity') :
    ((core { name } : Stack (Store K V) K).withLayers layers).Below
      ((core { name := name' }).withLayers layers') := by
  refine ⟨.withLayers hc ?_, .withLayers layers fun k => by simp [Store.Has], fun k v hv => ?_⟩
  · exact .withLayers (.core _) fun capacity' hc' => .empty (hle capacity' hc')
  · rw [inner_withLayers] at hv
    cases Std.HashMap.getElem?_empty.symm.trans hv

variable [EquivBEq K] [LawfulHashable K]

private theorem not_evicted (h : s.Below t) {request : Request K V} {k : K}
    (hk : (request.run () s).cache.inner.Has k) : ∀ e ∈ t.evictedBy request, (e == k) = false := by
  have hnests : (request.run () s).cache.AnyRecency fun capacity recency => t.EachRecency
      fun capacity' recency' => Inside capacity recency capacity' (recency'.after capacity' request) :=
    h.nests.change () request fun _ _ hr => hr.imp fun _ _ hi => hi.after request
  -- the layer inside all the others still tracks the key, so none of these has dropped it
  obtain ⟨capacity, recency, hinside, -, htracks⟩ :=
    hnests.and_each (h.covers.run Store.faithful.keyed request)
  refine EachRecency.evictedBy hinside fun capacity' recency' hi => ?_
  exact Recency.not_dropped (hi.contains (htracks k hk))

/-- The same request of both stacks leaves the one below the other. -/
theorem run (h : s.Below t) (request : Request K V) :
    (request.run () s).cache.Below (request.run () t).cache := by
  refine ⟨?_, h.covers.run Store.faithful.keyed request, fun k v hv => ?_⟩
  · exact h.nests.change () request fun _ _ hr => hr.change () request fun _ _ hi => hi.after request
  · rw [Store.getElem?_run_inner (h.not_evicted ⟨v, hv⟩)]
    exact h.entries.run request k v (Store.some_of_run_inner hv)

theorem runAll (h : s.Below t) (requests : List (Request K V)) :
    (Request.runAll () s requests).cache.Below (Request.runAll () t requests).cache := by
  induction requests generalizing s t with
  | nil => exact h
  | cons request requests ih => exact ih (h.run request)

private theorem answer_eq (h : s.Below t) (h' : t.Below s) (request : Request K V) :
    (request.run () s).answer = (request.run () t).answer := by
  have hentries := h.entries.getElem?_eq h'.entries
  rw [(run_inner () s request).2, (run_inner () t request).2]
  cases request with
  | get k => exact congrArg Answer.found (hentries k)
  | remove k => exact congrArg Answer.found (hentries k)
  | size => exact congrArg Answer.count (Nat.le_antisymm h.entries.size_le h'.entries.size_le)
  | _ => rfl

theorem answers_eq (h : s.Below t) (h' : t.Below s) (requests : List (Request K V)) :
    (Request.runAll () s requests).answer = (Request.runAll () t requests).answer := by
  induction requests generalizing s t with
  | nil => rfl
  | cons request requests ih =>
    exact congrArg₂ List.cons (h.answer_eq h' request) (ih (h.run request) (h'.run request))

end Below

variable [EquivBEq K] [LawfulHashable K]

/-- Fresh layers around empty stores differ for no run if the smallest capacity among them is the same. -/
theorem alike_of_least (name name' : String) {layers layers' : List Layer} {least : Nat}
    (hmem : .lru least ∈ layers) (hle : ∀ capacity, .lru capacity ∈ layers → least ≤ capacity)
    (hmem' : .lru least ∈ layers') (hle' : ∀ capacity, .lru capacity ∈ layers' → least ≤ capacity)
    (requests : List (Request K V)) :
    let one := Request.runAll () ((core { name } : Stack (Store K V) K).withLayers layers) requests
    let other := Request.runAll () ((core { name := name' } : Stack (Store K V) K).withLayers layers') requests
    one.answer = other.answer ∧
      ∀ k : K, one.cache.inner.entries[k]? = other.cache.inner.entries[k]? := by
  have hbelow := Below.withLayers (K := K) (V := V) name name' hmem hle'
  have habove := Below.withLayers (K := K) (V := V) name' name hmem' hle
  refine ⟨hbelow.answers_eq habove requests, ?_⟩
  exact (hbelow.runAll requests).entries.getElem?_eq (habove.runAll requests).entries

/-- Recency layers one around the other are to every run from empty like one layer with the smallest of
their capacities. All requests are answered the same, and the same entries are left in the store. -/
theorem layers_collapse (name : String) {capacities : List Nat} {least : Nat}
    (hleast : capacities.min? = some least) (requests : List (Request K V)) :
    let layered := Request.runAll () ((core { name } : Stack (Store K V) K).withLayers
      (capacities.map Layer.lru)) requests
    let single := Request.runAll () ((core { name } : Stack (Store K V) K).withLru least) requests
    layered.answer = single.answer ∧
      ∀ k : K, layered.cache.inner.entries[k]? = single.cache.inner.entries[k]? := by
  obtain ⟨hmem, hle⟩ := List.min?_eq_some_iff.mp hleast
  have hlayered : ∀ capacity, Layer.lru capacity ∈ capacities.map Layer.lru → least ≤ capacity := by
    intro capacity hc
    obtain ⟨capacity', hc', ⟨⟩⟩ := List.mem_map.mp hc
    exact hle capacity hc'
  have hsingle : ∀ capacity, Layer.lru capacity ∈ [Layer.lru least] → least ≤ capacity := by
    intro capacity hc
    cases List.mem_singleton.mp hc
    exact Nat.le_refl least
  exact alike_of_least name name (List.mem_map_of_mem hmem) hlayered List.mem_cons_self hsingle requests

/-- Three layers, the smallest one between the others, answer like that one alone. -/
theorem layers_collapse_of_three :
    let requests : List (Request Nat String) := [.put 1 "a", .put 2 "b", .get 1, .put 3 "c", .size]
    [3, 1, 2].min? = some 1 ∧
      (Request.runAll () ((core { name := "rows" } : Stack (Store Nat String) Nat).withLayers
        ([3, 1, 2].map Layer.lru)) requests).answer =
      (Request.runAll () ((core { name := "rows" } : Stack (Store Nat String) Nat).withLru 1)
        requests).answer := by
  intro requests
  have hleast : [3, 1, 2].min? = some 1 := rfl
  exact ⟨hleast, (layers_collapse "rows" hleast requests).1⟩

omit [EquivBEq K] [LawfulHashable K] in
private theorem run_lru (capacity : Nat) (recency : Recency K) (store : Store K V)
    (request : Request K V) : ∃ recency' store',
      (request.run () (lru capacity recency (core store))).cache = lru capacity recency' (core store') := by
  cases request with
  | put k v =>
    change ∃ recency' store', ((lru capacity recency (core store)).put () k v).cache = _
    rw [put]
    rcases recency.track capacity k with ⟨_ | e, recency'⟩
    · exact ⟨_, _, rfl⟩
    · exact ⟨_, _, rfl⟩
  | _ => exact ⟨_, _, rfl⟩

omit [EquivBEq K] [LawfulHashable K] in
private theorem runAll_lru (capacity : Nat) (recency : Recency K) (store : Store K V)
    (requests : List (Request K V)) : ∃ recency' store',
      (Request.runAll () (lru capacity recency (core store)) requests).cache =
        lru capacity recency' (core store') := by
  induction requests generalizing recency store with
  | nil => exact ⟨recency, store, rfl⟩
  | cons request requests ih =>
    obtain ⟨recency', store', hs⟩ := run_lru capacity recency store request
    change ∃ _ _, (Request.runAll () (request.run () (lru capacity recency (core store))).cache
      requests).cache = _
    rw [hs]
    exact ih recency' store'

/-- More places never lose a hit. Wherever two runs of the same requests get to, one over a recency layer
and one over a layer with no fewer places, what the first finds or removes the second does too, and it
tracks all keys that the first tracks. -/
theorem more_capacity_keeps_hits (name : String) {capacity capacity' : Nat} (hle : capacity ≤ capacity')
    (requests : List (Request K V)) :
    let smaller := (Request.runAll () ((core { name } : Stack (Store K V) K).withLru capacity) requests).cache
    let larger := (Request.runAll () ((core { name } : Stack (Store K V) K).withLru capacity') requests).cache
    (∀ k v, (smaller.get () k).answer = some v → (larger.get () k).answer = some v) ∧
      (∀ k v, (smaller.remove () k).answer = some v → (larger.remove () k).answer = some v) ∧
      ∀ k, smaller.tracks k = true → larger.tracks k = true := by
  intro smaller larger
  have hstart : ((core { name } : Stack (Store K V) K).withLayers [.lru capacity]).Below
      ((core { name }).withLayers [.lru capacity']) :=
    .withLayers name name List.mem_cons_self fun capacity'' hc => by
      cases List.mem_singleton.mp hc
      exact hle
  have hbelow : smaller.Below larger := hstart.runAll requests
  refine ⟨fun k v hv => ?_, fun k v hv => ?_, ?_⟩
  · rw [(get_inner () _ k).2] at hv ⊢
    exact hbelow.entries k v hv
  · rw [(remove_inner () _ k).2] at hv ⊢
    exact hbelow.entries k v hv
  · obtain ⟨recency, store, hsmaller⟩ := runAll_lru capacity .empty ({ name } : Store K V) requests
    obtain ⟨recency', store', hlarger⟩ := runAll_lru capacity' .empty ({ name } : Store K V) requests
    have hinside := hbelow.nests
    rw [show smaller = _ from hsmaller, show larger = _ from hlarger] at hinside ⊢
    rcases hinside with ⟨hinside, -⟩ | hnone
    · exact fun k => hinside.contains
    · cases hnone

/-- The last of two keys is found behind one place, and so it is behind two. -/
theorem more_capacity_keeps_hit_of_last :
    let requests : List (Request Nat String) := [.put 1 "a", .put 2 "b"]
    let smaller := (Request.runAll () ((core { name := "rows" } : Stack (Store Nat String) Nat).withLru 1)
      requests).cache
    let larger := (Request.runAll () ((core { name := "rows" } : Stack (Store Nat String) Nat).withLru 2)
      requests).cache
    1 ≤ 2 ∧ (smaller.get () 2).answer = some "b" ∧ (larger.get () 2).answer = some "b" := by
  intro requests smaller larger
  have hle : 1 ≤ 2 := by decide
  have hready : ((core { name := "rows" } : Stack (Store Nat String) Nat).withLru 1).EachRecency
      (Recency.Ready []) := ⟨.empty Nat.one_pos, trivial⟩
  have hnext := hready.change () (.put 1 "a" : Request Nat String) fun _ _ hr => hr.track 1
  have hkept : ∀ e ∈ evictedBy _ (.put 2 "b" : Request Nat String), (e == 2) = false :=
    hnext.evictedBy fun _ _ hr => (hr.guards 2).2
  have hfound : (smaller.get () 2).answer = some "b" := by
    rw [(get_inner () smaller 2).2]
    exact (Store.getElem?_run_inner hkept).trans Std.HashMap.getElem?_insert_self
  exact ⟨hle, hfound, (more_capacity_keeps_hits "rows" hle requests).1 2 "b" hfound⟩

end ResultCache.Stack
