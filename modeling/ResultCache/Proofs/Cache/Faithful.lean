import ResultCache.Proofs.Stack.Inner
import ResultCache.Proofs.Store.Entries

/-! Caches that find only what was put into them. Layers may drop keys when they like, so the law
speaks of what may still be found and not of what must be. -/
namespace ResultCache

/-- The view tells which value could be found under each key. A put adds its own value, no other call
adds any, and what a call finds was in the view before. -/
structure Cache.Faithful {σ ω K V : Type} [BEq K] [Cache σ ω K V] (view : σ → K → Option V) (world : ω) :
    Prop where
  put : ∀ {a k v k' v'}, view (Cache.put world a k v).cache k' = some v' →
    (k == k') = true ∧ v' = v ∨ (k == k') = false ∧ view a k' = some v'
  get : ∀ {a k k' v'}, view (Cache.get world a k).cache k' = some v' → view a k' = some v'
  get_none : ∀ {a k k'}, (Cache.get world a k).answer = none → (k == k') = true →
    view (Cache.get world a k).cache k' = none
  get_some : ∀ {a k k' v}, (Cache.get world a k).answer = some v → (k == k') = true →
    view a k' = some v
  remove : ∀ {a k k' v'}, view (Cache.remove world a k).cache k' = some v' →
    (k == k') = false ∧ view a k' = some v'
  remove_some : ∀ {a k k' v}, (Cache.remove world a k).answer = some v → (k == k') = true →
    view a k' = some v
  size : ∀ {a k' v'}, view (Cache.size world a).cache k' = some v' → view a k' = some v'
  clear : ∀ {a k'}, view (Cache.clear world a).cache k' = none

namespace Cache.Faithful
variable {σ ω K V : Type} [BEq K] [Cache σ ω K V] {view : σ → K → Option V} {world : ω}

theorem removeEach (h : Cache.Faithful view world) {a : σ} {keys : List K} {k : K} {v : V}
    (hv : view (Cache.removeEach world a keys) k = some v) : view a k = some v := by
  induction keys generalizing a with
  | nil => exact hv
  | cons e keys ih => exact (h.remove (ih hv)).2

/-- Layers around a faithful cache leave it faithful. -/
theorem stack [Hashable K] (h : Cache.Faithful view world) :
    Cache.Faithful (fun s : Stack σ K => view s.inner) world where
  put {s k v k' v'} hv := by
    change view (s.put world k v).cache.inner k' = some v' at hv
    rw [Stack.put_inner] at hv
    exact h.put (h.removeEach hv)
  get {s k k' v'} hv := by
    change view (s.get world k).cache.inner k' = some v' at hv
    rw [(Stack.get_inner world s k).1] at hv
    exact h.get hv
  get_none {s k k'} ha hk := by
    change view (s.get world k).cache.inner k' = none
    rw [(Stack.get_inner world s k).1]
    exact h.get_none ((Stack.get_inner world s k).2.symm.trans ha) hk
  get_some {s k k' v} ha := h.get_some ((Stack.get_inner world s k).2.symm.trans ha)
  remove {s k k' v'} hv := by
    change view (s.remove world k).cache.inner k' = some v' at hv
    rw [(Stack.remove_inner world s k).1] at hv
    exact h.remove hv
  remove_some {s k k' v} ha := h.remove_some ((Stack.remove_inner world s k).2.symm.trans ha)
  size {s k' v'} hv := by
    change view (s.size world).cache.inner k' = some v' at hv
    rw [(Stack.size_inner world s).1] at hv
    exact h.size hv
  clear {s k'} := by
    change view (s.clear world).cache.inner k' = none
    rw [Stack.clear_inner]
    exact h.clear

end Cache.Faithful

variable {K V : Type} [BEq K] [Hashable K] [EquivBEq K] [LawfulHashable K]

theorem Store.faithful : Cache.Faithful (fun (s : Store K V) k => s.entries[k]?) () where
  put hv := Store.some_of_insert hv
  get hv := hv
  get_none ha hk := (Std.HashMap.getElem?_congr hk).symm.trans ha
  get_some ha hk := (Std.HashMap.getElem?_congr hk).symm.trans ha
  remove hv := Store.some_of_erase hv
  remove_some ha hk := (Std.HashMap.getElem?_congr hk).symm.trans ha
  size hv := hv
  clear := Std.HashMap.getElem?_empty

end ResultCache
