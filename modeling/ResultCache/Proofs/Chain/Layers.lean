import ResultCache.Chain
import ResultCache.Proofs.Request

/-! Chains of fresh layers, and chains as caches. -/
namespace ResultCache
variable {K V : Type} [BEq K] [Hashable K]

/-- Either no layer is weak, or there are the layers beneath the first weak one and those around it. -/
theorem Layer.weak_cases (layers : List Layer) :
    (∀ n, .weak n ∉ layers) ∨ ∃ beneath pinCount around,
      layers = beneath ++ .weak pinCount :: around ∧ ∀ n, .weak n ∉ beneath := by
  induction layers with
  | nil => exact .inl fun n => List.not_mem_nil
  | cons layer layers ih =>
    by_cases hw : ∃ pinCount, layer = .weak pinCount
    · obtain ⟨pinCount, rfl⟩ := hw
      exact .inr ⟨[], pinCount, layers, rfl, fun n => List.not_mem_nil⟩
    · have hfirst : ∀ {rest : List Layer}, (∀ n, .weak n ∉ rest) → ∀ n, .weak n ∉ layer :: rest :=
        fun hrest n hn => (List.mem_cons.mp hn).elim (fun h => hw ⟨n, h.symm⟩) (hrest n)
      rcases ih with h | ⟨beneath, pinCount, around, rfl, h⟩
      · exact .inl (hfirst h)
      · exact .inr ⟨layer :: beneath, pinCount, around, rfl, hfirst h⟩

@[simp] theorem Stack.inner_withLayers {σ : Type} (s : Stack σ K) (layers : List Layer) :
    (s.withLayers layers).inner = s.inner := by
  induction layers generalizing s with
  | nil => rfl
  | cons layer layers ih =>
    cases layer with
    | lru capacity => exact ih (s.withLru capacity)
    | weak pinCount => exact ih s
    | logging => exact ih s.withLogging

namespace Chain
variable [BEq V] [Hashable V]

private theorem tierOver_append_weak (s : Stack (Store K (Handle K V)) K) {beneath : List Layer}
    (pinCount : Nat) (around : List Layer) (h : ∀ n, .weak n ∉ beneath) :
    tierOver? s (beneath ++ .weak pinCount :: around) =
      some ((Stack.core ({ pinCount, under := s.withLayers beneath } : Tier K V)).withLayers around) := by
  induction beneath generalizing s with
  | nil => rfl
  | cons layer beneath ih =>
    have hrest : ∀ n, .weak n ∉ beneath := fun n hn => h n (List.mem_cons_of_mem _ hn)
    cases layer with
    | lru capacity => exact ih (s.withLru capacity) hrest
    | weak n => exact (h n List.mem_cons_self).elim
    | logging => exact ih s.withLogging hrest

private theorem tierOver_eq_none (s : Stack (Store K (Handle K V)) K) {layers : List Layer}
    (h : ∀ n, .weak n ∉ layers) : tierOver? s layers = none := by
  induction layers generalizing s with
  | nil => rfl
  | cons layer layers ih =>
    have hrest : ∀ n, .weak n ∉ layers := fun n hn => h n (List.mem_cons_of_mem _ hn)
    cases layer with
    | lru capacity => exact ih (s.withLru capacity) hrest
    | weak n => exact (h n List.mem_cons_self).elim
    | logging => exact ih s.withLogging hrest

theorem ofLayers_strong (name : String) {layers : List Layer} (h : ∀ n, .weak n ∉ layers) :
    (ofLayers name layers : Chain K V) = strong ((Stack.core { name }).withLayers layers) := by
  rw [ofLayers, tierOver_eq_none _ h]

theorem ofLayers_weak (name : String) {beneath : List Layer} (pinCount : Nat) (around : List Layer)
    (h : ∀ n, .weak n ∉ beneath) :
    (ofLayers name (beneath ++ .weak pinCount :: around) : Chain K V) =
      weak ((Stack.core { pinCount, under := (Stack.core { name }).withLayers beneath }).withLayers
        around) := by
  rw [ofLayers, tierOver_append_weak _ pinCount around h]

/-- A chain of fresh layers surrounds empty storage, or a new tier over such storage. -/
theorem ofLayers_inner (name : String) (layers : List Layer) :
    (∃ stack, (ofLayers name layers : Chain K V) = strong stack ∧ stack.inner = { name }) ∨
      ∃ stack pinCount under, (ofLayers name layers : Chain K V) = weak stack ∧
        stack.inner = { pinCount, under } ∧ under.inner = { name } := by
  rcases Layer.weak_cases layers with h | ⟨beneath, pinCount, around, rfl, h⟩
  · exact .inl ⟨_, ofLayers_strong name h, Stack.inner_withLayers _ layers⟩
  · exact .inr ⟨_, pinCount, _, ofLayers_weak name pinCount around h,
      Stack.inner_withLayers _ around, Stack.inner_withLayers _ beneath⟩

def mapTier (f : Tier K V → Tier K V) : Chain K V → Chain K V
  | strong stack => .strong stack
  | weak stack => .weak (stack.mapInner f)

instance : Cache (Chain K V) (V → Bool) K V where
  name := name
  put := put
  get := get
  remove := remove
  size := size
  clear := clear

theorem run_strong (inUse : V → Bool) (stack : Stack (Store K V) K) (request : Request K V) :
    (request.run inUse (strong stack)).cache = strong (request.run () stack).cache := by
  cases request <;> rfl

theorem run_weak (inUse : V → Bool) (stack : Stack (Tier K V) K) (request : Request K V) :
    (request.run inUse (weak stack)).cache = weak (request.run inUse stack).cache := by
  cases request <;> rfl

end Chain
end ResultCache
