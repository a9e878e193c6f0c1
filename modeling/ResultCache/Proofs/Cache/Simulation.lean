import ResultCache.Proofs.Request
import ResultCache.Stack

/-! Caches that no call can tell apart. If this holds of the caches inside two stacks with the same
recency layers, it holds of the stacks, whatever their logging layers have counted. -/
namespace ResultCache

/-- Related caches answer every call alike and stay related. -/
structure Cache.Simulation {σ ω K V : Type} [Cache σ ω K V] (R : σ → σ → Prop) (world : ω) : Prop where
  put : ∀ {a b}, R a b → ∀ k v, R (Cache.put world a k v).cache (Cache.put world b k v).cache
  get : ∀ {a b}, R a b → ∀ k, R (Cache.get world a k).cache (Cache.get world b k).cache ∧
    (Cache.get world a k).answer = (Cache.get world b k).answer
  remove : ∀ {a b}, R a b → ∀ k, R (Cache.remove world a k).cache (Cache.remove world b k).cache ∧
    (Cache.remove world a k).answer = (Cache.remove world b k).answer
  size : ∀ {a b}, R a b → R (Cache.size world a).cache (Cache.size world b).cache ∧
    (Cache.size world a).answer = (Cache.size world b).answer
  clear : ∀ {a b}, R a b → R (Cache.clear world a).cache (Cache.clear world b).cache

theorem Cache.Simulation.run {σ ω K V : Type} [Cache σ ω K V] {R : σ → σ → Prop} {world : ω}
    (law : Cache.Simulation R world) {a b : σ} (h : R a b) (request : Request K V) :
    R (request.run world a).cache (request.run world b).cache ∧
      (request.run world a).answer = (request.run world b).answer := by
  cases request with
  | put k v => exact ⟨law.put h k v, rfl⟩
  | get k => exact (law.get h k).imp_right (congrArg Answer.found)
  | remove k => exact (law.remove h k).imp_right (congrArg Answer.found)
  | size => exact (law.size h).imp_right (congrArg Answer.count)
  | clear => exact ⟨law.clear h, rfl⟩

theorem Cache.Simulation.eq {σ ω K V : Type} [Cache σ ω K V] (world : ω) :
    Cache.Simulation (fun a b : σ => b = a) world where
  put {a b} h k v := by rw [h]
  get {a b} h k := by rw [h]; exact ⟨rfl, rfl⟩
  remove {a b} h k := by rw [h]; exact ⟨rfl, rfl⟩
  size {a b} h := by rw [h]; exact ⟨rfl, rfl⟩
  clear {a b} h := by rw [h]

/-- Predicates that every call leaves true. -/
structure Cache.Preserves {σ ω K V : Type} [Cache σ ω K V] (P : σ → Prop) (world : ω) : Prop where
  put : ∀ {a}, P a → ∀ k v, P (Cache.put world a k v).cache
  get : ∀ {a}, P a → ∀ k, P (Cache.get world a k).cache
  remove : ∀ {a}, P a → ∀ k, P (Cache.remove world a k).cache
  size : ∀ {a}, P a → P (Cache.size world a).cache
  clear : ∀ {a}, P a → P (Cache.clear world a).cache

/-- What holds of the first of two related caches may go into the relation. -/
theorem Cache.Simulation.preserving {σ ω K V : Type} [Cache σ ω K V] {R : σ → σ → Prop} {P : σ → Prop}
    {world : ω} (law : Cache.Simulation R world) (hP : Cache.Preserves P world) :
    Cache.Simulation (fun a b => R a b ∧ P a) world where
  put h k v := ⟨law.put h.1 k v, hP.put h.2 k v⟩
  get h k := ⟨⟨(law.get h.1 k).1, hP.get h.2 k⟩, (law.get h.1 k).2⟩
  remove h k := ⟨⟨(law.remove h.1 k).1, hP.remove h.2 k⟩, (law.remove h.1 k).2⟩
  size h := ⟨⟨(law.size h.1).1, hP.size h.2⟩, (law.size h.1).2⟩
  clear h := ⟨law.clear h.1, hP.clear h.2⟩

namespace Stack
variable {σ ω K V : Type} [BEq K] [Hashable K]

/-- Stacks with the same layers around related caches, but for the counts of calls. -/
inductive Beside (R : σ → σ → Prop) : Stack σ K → Stack σ K → Prop
  | core {a b} (inner : R a b) : Beside R (.core a) (.core b)
  | lru {s t} (capacity : Nat) (recency : Recency K) (under : Beside R s t) :
    Beside R (.lru capacity recency s) (.lru capacity recency t)
  | logging {s t} (stats stats' : Stats) (under : Beside R s t) :
    Beside R (.logging stats s) (.logging stats' t)

theorem mapInner_id (s : Stack σ K) : s.mapInner id = s := by
  induction s with
  | core cache => rfl
  | lru capacity recency under ih => exact congrArg (lru capacity recency) ih
  | logging stats under ih => exact congrArg (logging stats) ih

variable {R Q : σ → σ → Prop} {s t : Stack σ K}

theorem Beside.inner (h : Beside R s t) : R s.inner t.inner := by
  induction h with
  | core inner => exact inner
  | lru capacity recency under ih => exact ih
  | logging stats stats' under ih => exact ih

theorem Beside.mapInner {f g : σ → σ} (h : Beside R s t) (hq : ∀ a b, R a b → Q (f a) (g b)) :
    Beside Q (s.mapInner f) (t.mapInner g) := by
  induction h with
  | core inner => exact .core (hq _ _ inner)
  | lru capacity recency under ih => exact .lru capacity recency ih
  | logging stats stats' under ih => exact .logging stats stats' ih

theorem Beside.mapInner_right {g : σ → σ} (h : Beside R s t) (hq : ∀ a b, R a b → Q a (g b)) :
    Beside Q s (t.mapInner g) := by
  have hm : Beside Q (s.mapInner id) (t.mapInner g) := h.mapInner hq
  rwa [mapInner_id] at hm

theorem Beside.imp (h : Beside R s t) (hq : ∀ a b, R a b → Q a b) : Beside Q s t := by
  have hm : Beside Q s (t.mapInner id) := h.mapInner_right hq
  rwa [mapInner_id] at hm

theorem Beside.refl (s : Stack σ K) (h : R s.inner s.inner) : Beside R s s := by
  induction s with
  | core cache => exact .core h
  | lru capacity recency under ih => exact .lru capacity recency (ih h)
  | logging stats under ih => exact .logging stats stats (ih h)

variable [Cache σ ω K V]

/-- A removal on one side leaves the layers alike. -/
theorem Beside.remove_left {world : ω} {k : K} (h : Beside R s t)
    (hq : ∀ a b, R a b → Q (Cache.remove world a k).cache b) : Beside Q (s.remove world k).cache t := by
  induction h with
  | core inner => exact .core (hq _ _ inner)
  | lru capacity recency under ih => exact .lru capacity recency ih
  | logging stats stats' under ih => exact .logging _ stats' ih

variable {world : ω} (law : Cache.Simulation R world)
include law

private theorem Beside.remove (h : Beside R s t) (k : K) :
    Beside R (s.remove world k).cache (t.remove world k).cache ∧
      (s.remove world k).answer = (t.remove world k).answer := by
  induction h with
  | core inner => exact ⟨.core (law.remove inner k).1, (law.remove inner k).2⟩
  | lru capacity recency under ih => exact ⟨.lru capacity recency ih.1, ih.2⟩
  | logging stats stats' under ih => exact ⟨.logging _ _ ih.1, ih.2⟩

private theorem Beside.put (h : Beside R s t) (k : K) (v : V) :
    Beside R (s.put world k v).cache (t.put world k v).cache := by
  induction h with
  | core inner => exact .core (law.put inner k v)
  | lru capacity recency under ih =>
    rw [Stack.put, Stack.put]
    rcases recency.track capacity k with ⟨_ | eldest, recency'⟩
    · exact .lru capacity recency' ih
    · exact .lru capacity recency' (ih.remove law eldest).1
  | logging stats stats' under ih => exact .logging _ _ ih

private theorem Beside.get (h : Beside R s t) (k : K) :
    Beside R (s.get world k).cache (t.get world k).cache ∧
      (s.get world k).answer = (t.get world k).answer := by
  induction h with
  | core inner => exact ⟨.core (law.get inner k).1, (law.get inner k).2⟩
  | lru capacity recency under ih => exact ⟨.lru capacity _ ih.1, ih.2⟩
  | logging stats stats' under ih => exact ⟨.logging _ _ ih.1, ih.2⟩

private theorem Beside.size (h : Beside R s t) :
    Beside R (s.size world).cache (t.size world).cache ∧
      (s.size world).answer = (t.size world).answer := by
  induction h with
  | core inner => exact ⟨.core (law.size inner).1, (law.size inner).2⟩
  | lru capacity recency under ih => exact ⟨.lru capacity recency ih.1, ih.2⟩
  | logging stats stats' under ih => exact ⟨.logging _ _ ih.1, ih.2⟩

private theorem Beside.clear (h : Beside R s t) :
    Beside R (s.clear world).cache (t.clear world).cache := by
  induction h with
  | core inner => exact .core (law.clear inner)
  | lru capacity recency under ih => exact .lru capacity .empty ih
  | logging stats stats' under ih => exact .logging _ _ ih

/-- Layers alike around caches that cannot be told apart cannot be told apart. -/
theorem simulation : Cache.Simulation (Beside (K := K) R) world where
  put h := h.put law
  get h := h.get law
  remove h := h.remove law
  size h := h.size law
  clear h := h.clear law

end Stack
end ResultCache
