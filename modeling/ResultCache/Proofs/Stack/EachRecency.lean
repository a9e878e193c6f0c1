import ResultCache.Proofs.Chain.Layers
import ResultCache.Proofs.Recency.Membership
import ResultCache.Proofs.Stack.Inner

/-! Properties that all recency layers of a stack share. What a request does to a layer depends on
its key alone, so a property outlasts the request in every layer if it does in one. -/
namespace ResultCache
variable {σ ω K V : Type} [BEq K] [Hashable K]

/-- Whether a property of recency layers is still true after a request, whatever the layer. -/
def Recency.Outlasts (P : Nat → Recency K → Prop) : Request K V → Prop
  | .put k _ => ∀ capacity recency, P capacity recency → P capacity (recency.track capacity k).2
  | .get k => ∀ capacity recency, P capacity recency → P capacity (recency.touch k)
  | .remove _ => True
  | .size => True
  | .clear => ∀ capacity recency, P capacity recency → P capacity .empty

theorem Recency.Outlasts.after {P : Nat → Recency K → Prop} {request : Request K V}
    (h : Outlasts P request) {capacity : Nat} {recency : Recency K} (hp : P capacity recency) :
    P capacity (recency.after capacity request) := by
  cases request with
  | put k v => exact h capacity recency hp
  | get k => exact h capacity recency hp
  | remove k => exact hp
  | size => exact hp
  | clear => exact h capacity recency hp

namespace Stack

def EachRecency (P : Nat → Recency K → Prop) : Stack σ K → Prop
  | core _ => True
  | lru capacity recency under => P capacity recency ∧ under.EachRecency P
  | logging _ under => under.EachRecency P

namespace EachRecency
variable {P Q : Nat → Recency K → Prop} {s : Stack σ K}

theorem imp (h : s.EachRecency P) (hQ : ∀ capacity recency, P capacity recency → Q capacity recency) :
    s.EachRecency Q := by
  induction s with
  | core cache => trivial
  | lru capacity recency under ih => exact ⟨hQ capacity recency h.1, ih h.2⟩
  | logging stats under ih => exact ih h

theorem and (h : s.EachRecency P) (hQ : s.EachRecency Q) :
    s.EachRecency fun capacity recency => P capacity recency ∧ Q capacity recency := by
  induction s with
  | core cache => trivial
  | lru capacity recency under ih => exact ⟨⟨h.1, hQ.1⟩, ih h.2 hQ.2⟩
  | logging stats under ih => exact ih h hQ

theorem core (cache : σ) : (Stack.core cache : Stack σ K).EachRecency P := trivial

theorem withLayers_iff {layers : List Layer} : (s.withLayers layers).EachRecency P ↔
    s.EachRecency P ∧ ∀ capacity, .lru capacity ∈ layers → P capacity .empty := by
  induction layers generalizing s with
  | nil => simp [Stack.withLayers]
  | cons layer layers ih =>
    rw [Stack.withLayers.eq_def]
    cases layer with
    | lru capacity => simp [ih, withLru, EachRecency, and_assoc, and_left_comm]
    | weak pinCount => simp [ih]
    | logging => simp [ih, withLogging, EachRecency]

theorem withLayers (h : s.EachRecency P) {layers : List Layer}
    (hP : ∀ capacity, .lru capacity ∈ layers → P capacity .empty) :
    (s.withLayers layers).EachRecency P := withLayers_iff.mpr ⟨h, hP⟩

theorem mapInner {f : σ → σ} (h : s.EachRecency P) : (s.mapInner f).EachRecency P := by
  induction s with
  | core cache => trivial
  | lru capacity recency under ih => exact ⟨h.1, ih h.2⟩
  | logging stats under ih => exact ih h

/-- What holds of the keys that each layer drops holds of all evicted keys. -/
theorem evictions {Q : K → Prop} {k : K} (h : s.EachRecency P)
    (hQ : ∀ capacity recency, P capacity recency → ∀ e ∈ (recency.track capacity k).1, Q e) :
    ∀ e ∈ s.evictions k, Q e := by
  induction s with
  | core cache => exact fun e he => (List.not_mem_nil he).elim
  | lru capacity recency under ih =>
    intro e he
    rcases List.mem_append.mp he with he | he
    · exact ih h.2 e he
    · exact hQ capacity recency h.1 e (Option.mem_toList.mp he)
  | logging stats under ih => exact ih h

theorem evictedBy {Q : K → Prop} {request : Request K V} (h : s.EachRecency P)
    (hQ : ∀ capacity recency, P capacity recency → ∀ e ∈ recency.dropped capacity request, Q e) :
    ∀ e ∈ s.evictedBy request, Q e := by
  cases request with
  | put k v => exact h.evictions hQ
  | _ => exact fun e he => (List.not_mem_nil he).elim

variable [Cache σ ω K V]

private theorem remove_iff (world : ω) (k : K) :
    (s.remove world k).cache.EachRecency P ↔ s.EachRecency P := by
  induction s with
  | core cache => exact Iff.rfl
  | lru capacity recency under ih => exact and_congr_right' ih
  | logging stats under ih => exact ih

private theorem put_iff (world : ω) (k : K) (v : V) : (s.put world k v).cache.EachRecency P ↔
    s.EachRecency fun capacity recency => P capacity (recency.track capacity k).2 := by
  induction s with
  | core cache => exact Iff.rfl
  | lru capacity recency under ih =>
    rw [Stack.put, EachRecency]
    rcases recency.track capacity k with ⟨_ | e, recency'⟩
    · exact and_congr_right' ih
    · exact and_congr_right' ((remove_iff world e).trans ih)
  | logging stats under ih => exact ih

/-- A request changes each layer by itself, whatever the layers beneath it are. -/
theorem run_iff (world : ω) (request : Request K V) : (request.run world s).cache.EachRecency P ↔
    s.EachRecency fun capacity recency => P capacity (recency.after capacity request) := by
  cases request with
  | put k v => exact put_iff world k v
  | remove k => exact remove_iff world k
  | _ =>
    induction s with
    | core cache => exact Iff.rfl
    | lru capacity recency under ih => exact and_congr_right' ih
    | logging stats under ih => exact ih

theorem remove (h : s.EachRecency P) (world : ω) (k : K) : (s.remove world k).cache.EachRecency P :=
  (remove_iff world k).mpr h

theorem change (h : s.EachRecency P) (world : ω) (request : Request K V)
    (hQ : ∀ capacity recency, P capacity recency → Q capacity (recency.after capacity request)) :
    (request.run world s).cache.EachRecency Q :=
  (run_iff world request).mpr (h.imp hQ)

end EachRecency
end Stack
end ResultCache
