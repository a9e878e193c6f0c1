import ResultCache.Proofs.Stack.Asked
import ResultCache.Proofs.Stack.Coverage
import ResultCache.Proofs.Stack.Events
import ResultCache.Proofs.Stack.RecencyLayer

/-! A recency layer whose capacity changes at run time. A smaller capacity drops nothing by itself, so more
keys may be tracked than it allows, and each put then drops one. What a layer tracks is balanced by
a ledger of the keys that it began to track and of those that it dropped. -/
namespace ResultCache

/-- What is done with a recency layer. -/
inductive Turn (K V : Type) where
  | request (request : Request K V)
  | setCapacity (capacity : Nat)

/-- What a recency layer has done since its keys were last cleared. -/
structure Ledger where
  /-- The capacity in force. -/
  capacity : Nat
  /-- The largest capacity that was in force. -/
  largest : Nat := capacity
  /-- The puts of keys that were not tracked. -/
  begun : Nat := 0
  evictions : Nat := 0

namespace Stack
variable {σ ω K V : Type} [BEq K] [Hashable K]

/-- The key that the outermost layer drops in a request, if it is a recency layer. -/
def drops (s : Stack σ K) (request : Request K V) : Option K :=
  match s with
  | lru capacity recency _ => recency.dropped capacity request
  | _ => none

end Stack

namespace Ledger
variable {σ ω K V : Type} [BEq K] [Hashable K]

def after (ledger : Ledger) (s : Stack σ K) : Turn K V → Ledger
  | .request (.put k v) =>
    { ledger with
      begun := ledger.begun + if s.tracks k then 0 else 1
      evictions := ledger.evictions + if (s.drops (.put k v)).isSome then 1 else 0 }
  | .request .clear => { capacity := ledger.capacity }
  | .request _ => ledger
  | .setCapacity capacity => { ledger with capacity, largest := max ledger.largest capacity }

/-- The ledger of a layer that tracks certain keys. -/
structure Balances (ledger : Ledger) (recency : Recency K) : Prop where
  wellFormed : recency.WellFormed
  capacity_le : ledger.capacity ≤ ledger.largest
  size_le : recency.size ≤ ledger.largest
  balance : recency.size + ledger.evictions = ledger.begun

namespace Balances

theorem empty (capacity : Nat) : ({ capacity } : Ledger).Balances (.empty : Recency K) where
  wellFormed := .empty
  capacity_le := Nat.le_refl capacity
  size_le := by
    rw [Recency.WellFormed.size_eq .empty]
    exact Nat.zero_le capacity
  balance := by
    rw [Recency.WellFormed.size_eq .empty]
    rfl

variable {ledger : Ledger} {recency : Recency K}

theorem setCapacity (h : ledger.Balances recency) (capacity : Nat) :
    Balances { ledger with capacity, largest := max ledger.largest capacity } recency where
  wellFormed := h.wellFormed
  capacity_le := Nat.le_max_right _ _
  size_le := Nat.le_trans h.size_le (Nat.le_max_left _ _)
  balance := h.balance

variable [EquivBEq K]

theorem touch (h : ledger.Balances recency) (k : K) : ledger.Balances (recency.touch k) where
  wellFormed := (h.wellFormed.touch k).1
  capacity_le := h.capacity_le
  size_le := by
    rw [h.wellFormed.size_touch]
    exact h.size_le
  balance := by
    rw [h.wellFormed.size_touch]
    exact h.balance

variable [LawfulHashable K]

/-- A put that drops no key leaves no more keys than the capacity in force, and one that drops a key leaves
no more than there were. -/
theorem track (h : ledger.Balances recency) (k : K) :
    Balances { ledger with
      begun := ledger.begun + if recency.contains k then 0 else 1
      evictions := ledger.evictions + if (recency.track ledger.capacity k).1.isSome then 1 else 0 }
      (recency.track ledger.capacity k).2 := by
  obtain ⟨hgone, hsize⟩ := h.wellFormed.size_track ledger.capacity k
  have hle := h.capacity_le
  have hold := h.size_le
  have hbalance := h.balance
  refine ⟨(h.wellFormed.track _ k).1, hle, ?_, ?_⟩
  · change (recency.track ledger.capacity k).2.size ≤ ledger.largest
    by_cases hg : (recency.track ledger.capacity k).1.isSome = true
    · rw [if_pos hg] at hsize
      split at hsize <;> omega
    · have hroom := mt hgone.mpr hg
      rw [if_neg hg] at hsize
      omega
  · change (recency.track ledger.capacity k).2.size + (ledger.evictions + _) = ledger.begun + _
    omega

/-- The ledger goes on with what a request does to the layer. -/
theorem after (h : ledger.Balances recency) (under : Stack σ K) (request : Request K V) :
    let ledger' := ledger.after (.lru ledger.capacity recency under) (.request request)
    ledger'.capacity = ledger.capacity ∧ ledger'.Balances (recency.after ledger.capacity request) := by
  cases request with
  | put k v => exact ⟨rfl, h.track k⟩
  | get k => exact ⟨rfl, h.touch k⟩
  | remove k => exact ⟨rfl, h⟩
  | size => exact ⟨rfl, h⟩
  | clear => exact ⟨rfl, .empty ledger.capacity⟩

end Balances
end Ledger

namespace Stack
variable {σ ω K V : Type} [BEq K] [Hashable K] [Cache σ ω K V]

/-- A new capacity is given to the outermost layer. -/
def turn (world : ω) (s : Stack σ K) : Turn K V → Stack σ K
  | .request request => (request.run world s).cache
  | .setCapacity capacity => (s.setCapacity? s.height capacity).getD s

def account (s : Stack σ K × Ledger) (call : ω × Turn K V) : Stack σ K × Ledger :=
  (s.1.turn call.1 call.2, s.2.after s.1 call.2)

/-- A new capacity changes neither the tracked keys nor the delegate. -/
theorem turn_setCapacity (world : ω) (capacity capacity' : Nat) (recency : Recency K) (under : Stack σ K) :
    (lru capacity recency under).turn world (.setCapacity capacity' : Turn K V) =
      .lru capacity' recency under := by
  rw [turn, height, setCapacity?, if_pos rfl, Option.getD_some]

variable [EquivBEq K] [LawfulHashable K]

private theorem account_lru {ledger : Ledger} {recency : Recency K} (under : Stack σ K)
    (h : ledger.Balances recency) (call : ω × Turn K V) :
    ∃ recency' under' ledger', account (.lru ledger.capacity recency under, ledger) call =
        (.lru ledger'.capacity recency' under', ledger') ∧ ledger'.Balances recency' ∧
      ∀ keys : σ → K → Prop, (∀ world, Cache.Keyed keys world) →
        (∀ k, keys under.inner k → recency.contains k = true) →
        ∀ k, keys under'.inner k → recency'.contains k = true := by
  obtain ⟨world, request | capacity⟩ := call
  · obtain ⟨hcapacity, hbalances⟩ := h.after under request
    have hrun := run_eq_asks world ledger.capacity recency under request
    refine ⟨_, (Request.runAll world under (recency.asks ledger.capacity request)).cache, _, ?_, hbalances,
      fun keys law hcovers k hk => ?_⟩
    · rw [hcapacity, ← hrun]
      rfl
    · have hinner := (run_inner world (lru ledger.capacity recency under) request).1
      rw [hrun, inner] at hinner
      rw [hinner] at hk
      refine (law world).covered hcovers (fun e he => ?_) hk
      exact (EachRecency.dropped (lru ledger.capacity recency under) request).1 e he
  · exact ⟨recency, under, ledger.after (.lru ledger.capacity recency under) (.setCapacity capacity : Turn K V),
      Prod.ext (turn_setCapacity world _ _ recency under) rfl, h.setCapacity capacity,
      fun _ _ hcovers => hcovers⟩

private theorem foldl_account {ledger : Ledger} {recency : Recency K} (under : Stack σ K)
    (h : ledger.Balances recency) (calls : List (ω × Turn K V)) :
    ∃ recency' under' ledger', calls.foldl account (.lru ledger.capacity recency under, ledger) =
        (.lru ledger'.capacity recency' under', ledger') ∧ ledger'.Balances recency' ∧
      ∀ keys : σ → K → Prop, (∀ world, Cache.Keyed keys world) →
        (∀ k, keys under.inner k → recency.contains k = true) →
        ∀ k, keys under'.inner k → recency'.contains k = true := by
  induction calls generalizing ledger recency under with
  | nil => exact ⟨recency, under, ledger, rfl, h, fun _ _ hcovers => hcovers⟩
  | cons call calls ih =>
    obtain ⟨_, _, _, hs, h', hstep⟩ := account_lru under h call
    obtain ⟨recency', under', ledger', hrest, h'', hcovers⟩ := ih _ h'
    rw [List.foldl_cons, hs]
    exact ⟨recency', under', ledger', hrest, h'', fun keys law hk => hcovers keys law (hstep keys law hk)⟩

omit [EquivBEq K] [LawfulHashable K] in
/-- A put in full: the delegate stores the value, and then gives up the key that was dropped, if any. -/
theorem put_lru_eq (world : ω) (capacity : Nat) (recency : Recency K) (under : Stack σ K) (k : K) (v : V) :
    (lru capacity recency under).put world k v =
      let stored := under.put world k v
      match (recency.track capacity k).1 with
      | none => ⟨.lru capacity (recency.track capacity k).2 stored.cache, (), stored.events⟩
      | some eldest =>
        let removed := stored.cache.remove world eldest
        ⟨.lru capacity (recency.track capacity k).2 removed.cache, (),
          stored.events ++ .evicted capacity :: removed.events⟩ := by
  rw [put]
  rcases recency.track capacity k with ⟨_ | e, recency'⟩ <;> rfl

/-- Whatever a recency layer surrounds, and after any run in which its capacity may have changed at any time:
it tracks no more keys than the largest capacity in force since the last clear, and as many as it began
to track since then without those evicted. The next put drops a key, at most one, exactly if more keys
would be tracked than the capacity in force allows. Then it evicts this key and reports so, and otherwise
it does nothing but store the value, so at or above the capacity the keys do not become more. No other
request adds to what the delegate does. All keys of the delegate are tracked. -/
theorem recency_layer_balances (capacity : Nat) (delegate : Stack σ K) (calls : List (ω × Turn K V)) :
    ∃ recency under ledger,
      calls.foldl account (delegate.withLru capacity, { capacity }) =
        (.lru ledger.capacity recency under, ledger) ∧
      recency.size ≤ ledger.largest ∧
      recency.size + ledger.evictions = ledger.begun ∧
      (∀ (world : ω) k (v : V), ∃ recency' gone,
        (lru ledger.capacity recency under).drops (.put k v : Request K V) = gone ∧
        (lru ledger.capacity recency under).put world k v =
          (let stored := under.put world k v
          match gone with
          | none => ⟨.lru ledger.capacity recency' stored.cache, (), stored.events⟩
          | some eldest =>
            let removed := stored.cache.remove world eldest
            ⟨.lru ledger.capacity recency' removed.cache, (),
              stored.events ++ .evicted ledger.capacity :: removed.events⟩) ∧
        (∀ j, recency'.contains j = ((k == j || recency.contains j) && !gone.any (· == j))) ∧
        (gone.isSome = true ↔ ledger.capacity < recency.size + if recency.contains k then 0 else 1) ∧
        recency'.size + (if gone.isSome then 1 else 0) =
          recency.size + (if recency.contains k then 0 else 1) ∧
        (ledger.capacity ≤ recency.size → recency'.size ≤ recency.size)) ∧
      (∀ (world : ω) (request : Request K V), (∀ k v, request ≠ .put k v) →
        (request.run world (lru ledger.capacity recency under)).events =
          (request.run world under).events) ∧
      ∀ keys : σ → K → Prop, (∀ world, Cache.Keyed keys world) → (∀ k, ¬ keys delegate.inner k) →
        ∀ k, keys under.inner k → recency.contains k = true := by
  obtain ⟨recency, under, ledger, hs, h, hcovers⟩ :=
    foldl_account delegate (Ledger.Balances.empty (K := K) capacity) calls
  refine ⟨recency, under, ledger, hs, h.size_le, h.balance, fun world k v => ?_, ?_, ?_⟩
  · obtain ⟨hgone, hsize⟩ := h.wellFormed.size_track ledger.capacity k
    refine ⟨_, _, rfl, put_lru_eq world ledger.capacity recency under k v,
      recency.contains_track ledger.capacity k, hgone, hsize, fun hfull => ?_⟩
    by_cases hk : recency.contains k = true
    · rw [if_pos hk] at hsize
      omega
    · rw [if_neg hk] at hgone hsize
      rw [if_pos (hgone.mpr (Nat.lt_succ_of_le hfull))] at hsize
      omega
  · intro world request hput
    rw [events_lru]
    cases request with
    | put k v => exact (hput k v rfl).elim
    | _ => exact List.append_nil _
  · intro keys law hempty
    exact hcovers keys law fun k hk => (hempty k hk).elim

/-- Three places of which two are taken away: after another put at most three keys are tracked, all keys of
the storage among them. -/
theorem recency_layer_balances_after_shrinking :
    ∃ recency under ledger,
      [((), Turn.request (.put 1 "a")), ((), .request (.put 2 "b")), ((), .request (.put 3 "c")),
        ((), .setCapacity 1), ((), .request (.put 4 "d"))].foldl account
          ((core { name := "rows" } : Stack (Store Nat String) Nat).withLru 3, { capacity := 3 }) =
        (.lru ledger.capacity recency under, ledger) ∧
      ledger.capacity = 1 ∧ recency.size ≤ 3 ∧
      ∀ k, (∃ v, under.inner.entries[k]? = some v) → recency.contains k = true := by
  obtain ⟨recency, under, ledger, hs, hsize, -, -, -, hcovers⟩ := recency_layer_balances 3
    (core { name := "rows" } : Stack (Store Nat String) Nat)
    [((), Turn.request (.put 1 "a")), ((), .request (.put 2 "b")), ((), .request (.put 3 "c")),
      ((), .setCapacity 1), ((), .request (.put 4 "d"))]
  have hcapacity : 1 = ledger.capacity := congrArg (fun s => s.2.capacity) hs
  have hlargest : 3 = ledger.largest := congrArg (fun s => s.2.largest) hs
  refine ⟨recency, under, ledger, hs, hcapacity.symm, hlargest ▸ hsize, ?_⟩
  refine hcovers (fun store k => ∃ v, store.entries[k]? = some v) (fun _ => Store.faithful.keyed) ?_
  rintro k ⟨v, hv⟩
  cases Std.HashMap.getElem?_empty.symm.trans hv

end Stack
end ResultCache
