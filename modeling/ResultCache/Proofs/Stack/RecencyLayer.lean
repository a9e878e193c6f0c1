import ResultCache.Proofs.Recency.History
import ResultCache.Proofs.Stack.Inner
import ResultCache.Store

/-! A recency layer over any cache, followed through a run. What it tracks is determined by the
touches of the run alone, and it takes from its delegate just what the touches push out. -/
namespace ResultCache.Stack
open Recency (Alike recent leaving)
variable {σ ω K V : Type} [BEq K] [Hashable K]

def tracks (k : K) : Stack σ K → Bool
  | lru _ recency _ => recency.contains k
  | _ => false

/-- The touches after one more request, the latest in front. A lookup counts if its key is tracked. -/
def touched (s : Stack σ K) (past : List K) : Request K V → List K
  | .put k _ => k :: past
  | .get k => if s.tracks k then k :: past else past
  | .remove _ => past
  | .size => past
  | .clear => []

variable [Cache σ ω K V]

/-- One request of a run, with the touches since the last clear. -/
def follow (s : Stack σ K × List K) (call : ω × Request K V) : Stack σ K × List K :=
  ((call.2.run call.1 s.1).cache, s.1.touched s.2 call.2)

/-- A put stores the value in the delegate and then removes from it the key that was dropped. -/
theorem put_lru (world : ω) (capacity : Nat) (recency : Recency K) (under : Stack σ K) (k : K) (v : V) :
    ((lru capacity recency under).put world k v).cache =
      .lru capacity (recency.track capacity k).2
        ((recency.track capacity k).1.toList.foldl (fun s e => (s.remove world e).cache)
          (under.put world k v).cache) := by
  rw [put]
  rcases recency.track capacity k with ⟨_ | e, recency'⟩ <;> rfl

theorem foldl_remove_core (world : ω) (cache : σ) (keys : List K) :
    keys.foldl (fun s e => (s.remove world e).cache) (core cache) =
      core (Cache.removeEach world cache keys) := by
  induction keys generalizing cache with
  | nil => rfl
  | cons k keys ih => exact ih (Cache.remove world cache k).cache

/-- Over a plain delegate the value is put and the dropped key removed by calls of the delegate itself. -/
theorem put_lru_core (world : ω) (capacity : Nat) (recency : Recency K) (cache : σ) (k : K) (v : V) :
    ((lru capacity recency (core cache)).put world k v).cache =
      .lru capacity (recency.track capacity k).2
        (core (Cache.removeEach world (Cache.put world cache k v).cache
          (recency.track capacity k).1.toList)) := by
  rw [put_lru]
  exact congrArg (lru capacity _) (foldl_remove_core world (Cache.put world cache k v).cache _)

variable [EquivBEq K] [LawfulHashable K]

private theorem follow_lru {P : Stack σ K → Prop}
    (hP : ∀ (call : ω × Request K V) s, P s → P (call.2.run call.1 s).cache) {capacity : Nat}
    {recency : Recency K} {under : Stack σ K} {past : List K} (hunder : P under)
    (h : recency.Follows capacity past) (call : ω × Request K V) :
    ∃ recency' under' past', follow (.lru capacity recency under, past) call =
      (.lru capacity recency' under', past') ∧ P under' ∧ recency'.Follows capacity past' := by
  obtain ⟨world, request⟩ := call
  cases request with
  | put k v =>
    refine ⟨_, _, _, Prod.ext (put_lru world capacity recency under k v) rfl, ?_, (h.track k).1⟩
    exact Cache.removeEach_preserves (fun s e hs => hP (world, .remove e) s hs)
      (hP (world, .put k v) under hunder) _
  | get k =>
    refine ⟨_, _, _, rfl, hP (world, .get k) under hunder, ?_⟩
    by_cases hk : recency.contains k = true
    · simp only [touched, tracks, hk, if_true]
      exact h.touch hk
    · simp only [touched, tracks, hk, Bool.false_eq_true, if_false]
      rw [Recency.touch_of_untracked (by simpa using hk)]
      exact h
  | remove k => exact ⟨_, _, _, rfl, hP (world, .remove k) under hunder, h⟩
  | size => exact ⟨_, _, _, rfl, hP (world, .size) under hunder, h⟩
  | clear => exact ⟨_, _, _, rfl, hP (world, .clear) under hunder, .empty capacity⟩

private theorem foldl_follow {P : Stack σ K → Prop}
    (hP : ∀ (call : ω × Request K V) s, P s → P (call.2.run call.1 s).cache) {capacity : Nat}
    (calls : List (ω × Request K V)) {recency : Recency K} {under : Stack σ K} {past : List K} (hunder : P under)
    (h : recency.Follows capacity past) :
    ∃ recency' under' past', calls.foldl follow (.lru capacity recency under, past) =
      (.lru capacity recency' under', past') ∧ P under' ∧ recency'.Follows capacity past' := by
  induction calls generalizing recency under past with
  | nil => exact ⟨_, _, _, rfl, hunder, h⟩
  | cons call calls ih =>
    obtain ⟨recency', under', past', hs, hunder', h'⟩ := follow_lru hP hunder h call
    rw [List.foldl_cons, hs]
    exact ih hunder' h'

/-- Whatever a recency layer surrounds, and after any run from a fresh layer, the tracked keys are the
recent ones of the touches since the last clear. The next put removes from the delegate the keys that
leave these and no others; lookups, removals and counts only pass on the call, and a lookup tracks no
new key. A plain delegate stays one, and is itself asked to put the value and then to remove the keys
that leave. -/
theorem recency_layer_tracks_recent (capacity : Nat) (delegate : Stack σ K)
    (calls : List (ω × Request K V)) :
    ∃ recency under past,
      calls.foldl follow (delegate.withLru capacity, []) = (.lru capacity recency under, past) ∧
      Alike recency.toList.reverse (recent capacity past) ∧
      recency.size = (recent capacity past).length ∧
      (∀ k, recency.contains k = (recent capacity past).any (· == k)) ∧
      ((∃ cache, delegate = core cache) → ∃ cache, under = core cache) ∧
      (∀ (world : ω) k (v : V), ∃ recency' gone,
        Alike gone (leaving capacity past k) ∧ gone.length ≤ 1 ∧
        ((lru capacity recency under).put world k v).cache =
          .lru capacity recency' (gone.foldl (fun s e => (s.remove world e).cache)
            (under.put world k v).cache) ∧
        ∀ cache, under = core cache → ((lru capacity recency under).put world k v).cache =
          .lru capacity recency' (core (gone.foldl (fun cache e => (Cache.remove world cache e).cache)
            (Cache.put world cache k v).cache))) ∧
      ∀ (world : ω), (∀ k, ∃ recency',
          (lru capacity recency under).get world k = (under.get world k).map (.lru capacity recency') ∧
          (recency.contains k = false → recency' = recency)) ∧
        (∀ k, (lru capacity recency under).remove world k =
          (under.remove world k).map (.lru capacity recency)) ∧
        (lru capacity recency under).size world = (under.size world).map (.lru capacity recency) := by
  -- a request leaves a plain delegate plain
  have hplain (call : ω × Request K V) (s : Stack σ K)
      (h : (∃ cache, delegate = core cache) → ∃ cache, s = core cache) (hdelegate : ∃ cache, delegate = core cache) :
      ∃ cache, (call.2.run call.1 s).cache = core cache := by
    obtain ⟨cache, rfl⟩ := h hdelegate
    cases call.2 <;> exact ⟨_, rfl⟩
  obtain ⟨recency, under, past, hs, hunder, h⟩ :=
    foldl_follow hplain calls id (Recency.Follows.empty capacity)
  refine ⟨recency, under, past, hs, h.keys, h.size_eq, h.contains_eq, hunder, ?_, fun world => ⟨?_, ?_, rfl⟩⟩
  · intro world k v
    have hgone := (h.track k).2
    refine ⟨_, _, hgone, ?_, put_lru world capacity recency under k v, ?_⟩
    · rw [hgone.length_eq]
      exact Recency.length_leaving_le capacity past k
    · rintro cache rfl
      exact put_lru_core world capacity recency cache k v
  · intro k
    exact ⟨recency.touch k, rfl, Recency.touch_of_untracked⟩
  · intro k
    rfl

/-- Of three keys that are put, one of them twice, two places leave the last two. -/
theorem recency_layer_keeps_last_two :
    ∃ recency under,
      [((), Request.put 1 "a"), ((), .put 2 "b"), ((), .put 3 "c"), ((), .put 2 "d")].foldl follow
        ((core { name := "rows" } : Stack (Store Nat String) Nat).withLru 2, []) =
          (.lru 2 recency under, [2, 3, 2, 1]) ∧
      Alike recency.toList.reverse [2, 3] := by
  obtain ⟨recency, under, past, hs, hk, -⟩ := recency_layer_tracks_recent 2
    (core { name := "rows" } : Stack (Store Nat String) Nat)
    [((), .put 1 "a"), ((), .put 2 "b"), ((), .put 3 "c"), ((), .put 2 "d")]
  have hp : [2, 3, 2, 1] = past := congrArg Prod.snd hs
  subst hp
  have hr : recent 2 [2, 3, 2, 1] = [2, 3] := by decide
  exact ⟨recency, under, hs, hr ▸ hk⟩

end ResultCache.Stack
