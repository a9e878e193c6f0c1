import ResultCache.Proofs.Chain.WeakTier
import ResultCache.Proofs.Tier.Beneath

/-! What a removal does to a chain. It finds what a lookup would have found, and leaves the order of keys in all recency
layers as it is. -/
namespace ResultCache

namespace Stack
variable {σ ω K V : Type} [BEq K] [Hashable K]

/-- What the recency layers track, the outermost first. -/
def recencies : Stack σ K → List (Recency K)
  | core _ => []
  | lru _ recency under => recency :: under.recencies
  | logging _ under => under.recencies

@[simp] theorem recencies_mapInner (f : σ → σ) (s : Stack σ K) : (s.mapInner f).recencies = s.recencies := by
  induction s with
  | core cache => rfl
  | lru capacity recency under ih => exact congrArg (recency :: ·) ih
  | logging stats under ih => exact ih

variable [Cache σ ω K V] (world : ω)

theorem recencies_remove (s : Stack σ K) (k : K) : (s.remove world k).cache.recencies = s.recencies := by
  induction s with
  | core cache => rfl
  | lru capacity recency under ih => exact congrArg (recency :: ·) ih
  | logging stats under ih => exact ih

theorem recencies_removeEach (s : Stack σ K) (keys : List K) :
    (Cache.removeEach world s keys).recencies = s.recencies :=
  Cache.removeEach_preserves (P := fun rest : Stack σ K => rest.recencies = s.recencies)
    (fun rest k h => (recencies_remove world rest k).trans h) rfl keys

end Stack

variable {K V : Type} [BEq K] [Hashable K] [BEq V] [Hashable V]

theorem Tier.recencies_remove (inUse : V → Bool) (t : Tier K V) (k : K) :
    (t.remove inUse k).cache.under.recencies = t.under.recencies := by
  obtain ⟨dead, hunder⟩ := t.under_run inUse (.remove k)
  have hremoved : (t.remove inUse k).cache.under = _ := hunder
  rw [hremoved, Stack.recencies_removeEach]
  exact (Stack.recencies_remove () _ k).trans (Stack.recencies_removeEach () t.under t.queue.pending)

namespace Chain

def recencies : Chain K V → List (Recency K)
  | strong stack => stack.recencies
  | weak stack => stack.recencies ++ stack.inner.under.recencies

theorem recencies_mapTier (c : Chain K V) {f : Tier K V → Tier K V} (hf : ∀ t, (f t).under = t.under) :
    (c.mapTier f).recencies = c.recencies := by
  cases c with
  | strong stack => rfl
  | weak stack => simp [mapTier, recencies, hf]

theorem recencies_remove (inUse : V → Bool) (c : Chain K V) (k : K) :
    (c.remove inUse k).cache.recencies = c.recencies := by
  cases c with
  | strong stack => exact Stack.recencies_remove () stack k
  | weak stack =>
    change (stack.remove inUse k).cache.recencies ++ (stack.remove inUse k).cache.inner.under.recencies = _
    have hinner : (stack.remove inUse k).cache.inner = (stack.inner.remove inUse k).cache :=
      (Stack.remove_inner inUse stack k).1
    rw [Stack.recencies_remove, hinner, Tier.recencies_remove, recencies]

/-- In every state a removal finds what a lookup would have found. -/
theorem remove_answer (inUse : V → Bool) (c : Chain K V) (k : K) :
    (c.remove inUse k).answer = (c.get inUse k).answer := by
  cases c with
  | strong stack => exact (Stack.remove_inner () stack k).2.trans (Stack.get_inner () stack k).2.symm
  | weak stack =>
    obtain ⟨t, ht⟩ : ∃ t, (weak stack).tier? = some t := ⟨_, rfl⟩
    rw [(remove_of_tier ht inUse k).1, get_of_tier ht]

/-- Without a weak tier all other keys keep what they have. -/
theorem get_remove_of_strong [EquivBEq K] [LawfulHashable K] {c : Chain K V} (h : c.tier? = none) (inUse : V → Bool)
    {j k : K} (hj : (k == j) = false) :
    ((c.remove inUse k).cache.get inUse j).answer = (c.get inUse j).answer := by
  cases c with
  | weak stack => cases h
  | strong stack =>
    have hfound : ∀ s : Stack (Store K V) K, (s.get () j).answer = s.inner.entries[j]? :=
      fun s => (Stack.get_inner () s j).2
    change ((stack.remove () k).cache.get () j).answer = (stack.get () j).answer
    rw [hfound, hfound, (Stack.remove_inner () stack k).1]
    change (stack.inner.entries.erase k)[j]? = stack.inner.entries[j]?
    rw [Std.HashMap.getElem?_erase, hj]
    rfl

end Chain
end ResultCache
