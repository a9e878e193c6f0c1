import ResultCache.Proofs.Chain.Listing

/-! Stacks without their logging layers. No call and no trace tells whether a stack has such layers, wherever
they are among the others, and the recency layers can be given other capacities in both stacks. -/
namespace ResultCache
open Event (traces traces_append traces_congr traces_lookedUp)

def Layer.logs : Layer → Bool
  | logging => true
  | _ => false

/-- The number of a layer that has the given number among those that do not log. It is told of each layer, from the
inside outwards, whether it logs, and layers are counted from one, for zero is what they surround. -/
def Layer.place : List Bool → Nat → Nat
  | _, 0 => 0
  | [], n + 1 => n + 1
  | true :: logs, n + 1 => place logs (n + 1) + 1
  | false :: logs, n + 1 => place logs n + 1

namespace Layer

theorem place_append (below above : List Bool) (n : Nat) : place (below ++ above) n =
    if n ≤ below.count false then place below n else below.length + place above (n - below.count false) := by
  induction below generalizing n with
  | nil =>
    cases n with
    | zero => cases above <;> rfl
    | succ n => exact (Nat.zero_add _).symm
  | cons log below ih =>
    cases n with
    | zero => rfl
    | succ n =>
      cases log with
      | true =>
        rw [List.cons_append, place, place, ih, List.count_cons_of_ne Bool.false_ne_true.symm, List.length_cons]
        split <;> omega
      | false =>
        simp only [List.cons_append, place, ih, List.count_cons_self, List.length_cons, Nat.add_le_add_iff_right,
          Nat.add_sub_add_right]
        split <;> omega

theorem place_eq_zero_iff (logs : List Bool) (n : Nat) : place logs n = 0 ↔ n = 0 := by
  cases n with
  | zero => cases logs <;> exact iff_of_true rfl rfl
  | succ n =>
    rcases logs with _ | ⟨_ | _, logs⟩
    all_goals exact iff_of_false (Nat.succ_ne_zero _) (Nat.succ_ne_zero n)

theorem place_le {logs : List Bool} {n : Nat} (h : n ≤ logs.count false) : place logs n ≤ logs.length := by
  induction logs generalizing n with
  | nil =>
    obtain rfl : n = 0 := Nat.le_zero.mp h
    exact Nat.le_refl 0
  | cons log logs ih =>
    cases n with
    | zero => exact Nat.zero_le _
    | succ n =>
      cases log with
      | true =>
        rw [List.count_cons_of_ne Bool.false_ne_true.symm] at h
        exact Nat.succ_le_succ (ih h)
      | false =>
        rw [List.count_cons_self] at h
        exact Nat.succ_le_succ (ih (Nat.le_of_succ_le_succ h))

theorem lt_place {logs : List Bool} {n : Nat} (h : logs.count false < n) : logs.length < place logs n := by
  have hnone : ∀ m, place [] m = m := fun m => by cases m <;> rfl
  rw [← logs.append_nil, place_append, if_neg (Nat.not_le_of_lt h), hnone, List.append_nil]
  omega

variable {beneath : List Bool} {n : Nat}

theorem place_beneath (around : List Bool) (h : n ≤ beneath.count false) :
    place (beneath ++ false :: around) n = place beneath n := by
  rw [place_append, if_pos h]

theorem place_around (around : List Bool) (h : beneath.count false < n) :
    place (beneath ++ false :: around) n =
      beneath.length + 1 + place around (n - beneath.count false - 1) := by
  obtain ⟨m, rfl⟩ := Nat.exists_eq_add_of_lt h
  have hm : beneath.count false + m + 1 - beneath.count false = m + 1 := by omega
  rw [place_append, if_neg (Nat.not_le_of_lt h), hm, place, Nat.add_sub_cancel]
  omega

end Layer

namespace Stack
open Layer (place place_append place_le lt_place)
variable {σ ω K V : Type} [BEq K] [Hashable K]

/-- The second stack has the recency layers of the first, around a related cache, and no logging layer. It is told
which layers of the first log, from the inside outwards. -/
inductive Unlogged (R : σ → σ → Prop) : List Bool → Stack σ K → Stack σ K → Prop
  | core {a b} (inner : R a b) : Unlogged R [] (.core a) (.core b)
  | lru {logs s t} (capacity : Nat) (recency : Recency K) (under : Unlogged R logs s t) :
    Unlogged R (logs ++ [false]) (.lru capacity recency s) (.lru capacity recency t)
  | logging {logs s t} (stats : Stats) (under : Unlogged R logs s t) :
    Unlogged R (logs ++ [true]) (.logging stats s) t

theorem setCapacity?_of_height_lt {s : Stack σ K} {layer : Nat} (h : s.height < layer) (capacity : Nat) :
    s.setCapacity? layer capacity = none := by
  induction s with
  | core cache => rfl
  | lru old recency under ih =>
    have hunder : under.height + 1 < layer := h
    rw [setCapacity?, if_neg (Nat.ne_of_gt hunder), ih (Nat.lt_of_succ_lt hunder)]
    rfl
  | logging stats under ih =>
    rw [setCapacity?, ih (Nat.lt_of_succ_lt h)]
    rfl

namespace Unlogged
variable {R Q : σ → σ → Prop} {logs : List Bool} {s t : Stack σ K}

theorem inner (h : Unlogged R logs s t) : R s.inner t.inner := by
  induction h with
  | core inner => exact inner
  | lru capacity recency under ih => exact ih
  | logging stats under ih => exact ih

theorem height (h : Unlogged R logs s t) : s.height = logs.length ∧ t.height = logs.count false := by
  induction h with
  | core inner => exact ⟨rfl, rfl⟩
  | lru capacity recency under ih =>
    rw [Stack.height, Stack.height, ih.1, ih.2, List.length_append, List.count_append]
    exact ⟨rfl, rfl⟩
  | logging stats under ih =>
    rw [Stack.height, ih.1, ih.2, List.length_append, List.count_append]
    exact ⟨rfl, rfl⟩

private theorem setCapacity?_of_le (h : Unlogged R logs s t) {layer : Nat} (hle : layer ≤ logs.count false)
    (capacity : Nat) : Option.Rel (Unlogged R logs) (s.setCapacity? (place logs layer) capacity)
      (t.setCapacity? layer capacity) := by
  induction h with
  | core inner => exact .none
  | @lru logs s t old recency under ih =>
    obtain ⟨hs, ht⟩ := under.height
    rw [Stack.setCapacity?, Stack.setCapacity?, hs, ht, place_append]
    rw [List.count_append] at hle
    change layer ≤ logs.count false + 1 at hle
    rcases Nat.lt_or_eq_of_le hle with hlt | rfl
    · have hbelow : layer ≤ logs.count false := Nat.le_of_lt_succ hlt
      rw [if_pos hbelow, if_neg (Nat.ne_of_lt (Nat.lt_succ_of_le (place_le hbelow))), if_neg (Nat.ne_of_lt hlt)]
      exact rel_map (ih hbelow) fun _ _ => .lru old recency
    · have hone : place [false] 1 = 1 := rfl
      rw [if_neg (Nat.not_succ_le_self _), Nat.add_sub_cancel_left, hone, if_pos rfl, if_pos rfl]
      exact .some (.lru capacity recency under)
  | @logging logs s t stats under ih =>
    rw [List.count_append] at hle
    change layer ≤ logs.count false at hle
    rw [Stack.setCapacity?, place_append, if_pos hle, ← Option.map_id_apply (x := t.setCapacity? layer capacity)]
    exact rel_map (ih hle) fun _ _ => .logging stats

/-- A recency layer gets another capacity in both stacks, or there is none with this number. -/
theorem setCapacity? (h : Unlogged R logs s t) (layer capacity : Nat) :
    Option.Rel (Unlogged R logs) (s.setCapacity? (place logs layer) capacity)
      (t.setCapacity? layer capacity) := by
  rcases Nat.lt_or_ge (logs.count false) layer with hout | hle
  · obtain ⟨hs, ht⟩ := h.height
    have hout' := lt_place hout
    rw [← hs] at hout'
    rw [← ht] at hout
    rw [setCapacity?_of_height_lt hout, setCapacity?_of_height_lt hout']
    exact .none
  · exact h.setCapacity?_of_le hle capacity

theorem mapInner {f g : σ → σ} (h : Unlogged R logs s t) (hq : ∀ a b, R a b → Q (f a) (g b)) :
    Unlogged Q logs (s.mapInner f) (t.mapInner g) := by
  induction h with
  | core inner => exact .core (hq _ _ inner)
  | lru capacity recency under ih => exact .lru capacity recency ih
  | logging stats under ih => exact .logging stats ih

/-- Fresh layers around one stack, and those of them that log nothing around the other. -/
theorem withLayers (h : Unlogged R (s.layers.map Layer.logs) s t) (layers : List Layer) :
    Unlogged R ((s.withLayers layers).layers.map Layer.logs) (s.withLayers layers)
      (t.withLayers (layers.filter (· ≠ .logging))) := by
  induction layers generalizing s t with
  | nil => exact h
  | cons layer layers ih =>
    cases layer with
    | lru capacity =>
      refine ih (s := s.withLru capacity) ?_
      rw [withLru, Stack.layers, List.map_append]
      exact .lru capacity .empty h
    | weak pinCount => exact ih h
    | logging =>
      refine ih (s := s.withLogging) ?_
      rw [withLogging, Stack.layers, List.map_append]
      exact .logging {} h

variable [Cache σ ω K V] {world : ω} (law : Cache.Tracing R world)
include law

private theorem remove (h : Unlogged R logs s t) (k : K) :
    (s.remove world k).Alike (Unlogged R logs) (t.remove world k) := by
  induction h with
  | core inner => exact (law.remove inner k).map fun _ _ => .core
  | lru capacity recency under ih => exact ih.map fun _ _ => .lru capacity recency
  | logging stats under ih => exact ⟨.logging _ ih.cache, ih.answer, ih.traces⟩

private theorem put (h : Unlogged R logs s t) (k : K) (v : V) :
    (s.put world k v).Alike (Unlogged R logs) (t.put world k v) := by
  induction h with
  | core inner => exact (law.put inner k v).map fun _ _ => .core
  | lru capacity recency under ih =>
    rw [Stack.put, Stack.put]
    rcases recency.track capacity k with ⟨_ | eldest, recency'⟩
    · exact ih.map fun _ _ => .lru capacity recency'
    · have hremoved := ih.cache.remove law eldest
      exact ⟨.lru capacity recency' hremoved.cache, rfl,
        traces_congr ih.traces (congrArg (Event.evicted capacity :: ·) hremoved.traces)⟩
  | logging stats under ih => exact ⟨.logging _ ih.cache, rfl, ih.traces⟩

private theorem get (h : Unlogged R logs s t) (k : K) :
    (s.get world k).Alike (Unlogged R logs) (t.get world k) := by
  induction h with
  | core inner => exact (law.get inner k).map fun _ _ => .core
  | lru capacity recency under ih => exact ih.map fun _ _ => .lru capacity _
  | logging stats under ih =>
    refine ⟨.logging _ ih.cache, ih.answer, ?_⟩
    rw [← ih.traces]
    exact (traces_append _ _).trans ((congrArg _ (traces_lookedUp [_])).trans (List.append_nil _))

private theorem size (h : Unlogged R logs s t) : (s.size world).Alike (Unlogged R logs) (t.size world) := by
  induction h with
  | core inner => exact (law.size inner).map fun _ _ => .core
  | lru capacity recency under ih => exact ih.map fun _ _ => .lru capacity recency
  | logging stats under ih => exact ⟨.logging stats ih.cache, ih.answer, ih.traces⟩

private theorem clear (h : Unlogged R logs s t) : (s.clear world).Alike (Unlogged R logs) (t.clear world) := by
  induction h with
  | core inner => exact (law.clear inner).map fun _ _ => .core
  | lru capacity recency under ih => exact ih.map fun _ _ => .lru capacity .empty
  | logging stats under ih => exact ⟨.logging stats ih.cache, rfl, ih.traces⟩

/-- Logging layers around caches that cannot be told apart by calls and traces do not tell these apart. -/
theorem tracing : Cache.Tracing (Unlogged (K := K) R logs) world where
  put h := h.put law
  get h := h.get law
  remove h := h.remove law
  size h := h.size law
  clear h := h.clear law

end Unlogged
end Stack
end ResultCache
