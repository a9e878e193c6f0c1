import ResultCache.Proofs.Chain.WeakTier
import ResultCache.Proofs.Tier.Backing
import ResultCache.Proofs.Tier.Draining

/-! Chains beside chains that drop the entries of reclaimed values at once. Layers around a weak tier
see no more of the delay than the tier's own caller does. -/
namespace ResultCache.Chain
open Stack (Beside)
variable {K V : Type} [BEq K] [Hashable K] [BEq V] [Hashable V]

def collectEagerly? (inUse : V → Bool) (c : Chain K V) : Option (List K × Chain K V) :=
  c.onTier? (·.collectEagerly inUse)

/-- Chains alike but for entries that the second has already dropped. -/
inductive Settles : Chain K V → Chain K V → Prop
  | strong (stack : Stack (Store K V) K) : Settles (.strong stack) (.strong stack)
  | weak {s t : Stack (Tier K V) K} (tiers : Beside (fun a b => a.Settles b ∧ a.contents.Backed) s t) :
    Settles (.weak s) (.weak t)

theorem Settles.owners {c d : Chain K V} (h : Settles c d) (v : V) : c.owners v = d.owners v := by
  cases h with
  | strong stack => rfl
  | weak tiers => exact tiers.inner.1.owners v

/-- Chains of fresh layers have nothing to drop. -/
theorem Settles.ofLayers (name : String) (layers : List Layer) :
    Settles (ofLayers name layers : Chain K V) (.ofLayers name layers) := by
  rcases ofLayers_inner (K := K) (V := V) name layers with
    ⟨stack, hc, -⟩ | ⟨stack, pinCount, under, hc, hs, -⟩
  · rw [hc]
    exact .strong stack
  · rw [hc]
    refine .weak (.refl stack ?_)
    have hcontents : stack.inner.contents = .empty := contents_ofLayers (congrArg tier? hc)
    rw [hcontents]
    refine ⟨.refl ?_, .empty⟩
    rw [hs]

variable [EquivBEq K] [LawfulHashable K]

theorem Settles.collect {c d : Chain K V} (h : Settles c d) (inUse : V → Bool) :
    (c.collect? inUse = none ∧ d.collectEagerly? inUse = none) ∨
      ∃ keys c' d', c.collect? inUse = some (keys, c') ∧ d.collectEagerly? inUse = some (keys, d') ∧
        Settles c' d' := by
  cases h with
  | strong stack => exact .inl ⟨rfl, rfl⟩
  | @weak s t tiers =>
    obtain ⟨hkeys, htier⟩ := tiers.inner.1.collect inUse
    have hbacked := tiers.inner.2.collect inUse
    refine .inr ⟨_, _, _, rfl, ?_, .weak (tiers.mapInner fun _ _ _ => ⟨htier, hbacked⟩)⟩
    exact congrArg (fun keys => some (keys, _)) hkeys.symm

private theorem tiers_simulation (inUse : V → Bool) :
    Cache.Simulation (Beside (K := K) fun a b : Tier K V => a.Settles b ∧ a.contents.Backed) inUse :=
  Stack.simulation ((Tier.simulation inUse).preserving (Tier.backed_preserved inUse))

/-- No call of a chain tells whether the entries are dropped late or at once. -/
theorem settles_simulation (inUse : V → Bool) : Cache.Simulation (Settles (K := K)) inUse where
  put {c d} h k v := by
    cases h with
    | strong stack => exact .strong _
    | weak tiers => exact .weak ((tiers_simulation inUse).put tiers k v)
  get {c d} h k := by
    cases h with
    | strong stack => exact ⟨.strong _, rfl⟩
    | weak tiers => exact ((tiers_simulation inUse).get tiers k).imp_left .weak
  remove {c d} h k := by
    cases h with
    | strong stack => exact ⟨.strong _, rfl⟩
    | weak tiers => exact ((tiers_simulation inUse).remove tiers k).imp_left .weak
  size {c d} h := by
    cases h with
    | strong stack => exact ⟨.strong _, rfl⟩
    | weak tiers => exact ((tiers_simulation inUse).size tiers).imp_left .weak
  clear {c d} h := by
    cases h with
    | strong stack => exact .strong _
    | weak tiers => exact .weak ((tiers_simulation inUse).clear tiers)

variable [EquivBEq V] [LawfulHashable V]

/-- The size counts the keys that a lookup would find. -/
theorem Settles.size_eq {c d : Chain K V} (h : Settles c d) (inUse : V → Bool) :
    ∃ keys : List K, keys.Pairwise (fun k l => (k == l) = false) ∧
      (∀ k, (c.get inUse k).answer.isSome = keys.contains k) ∧
      (c.size inUse).answer = keys.length := by
  cases h with
  | strong stack =>
    refine ⟨stack.inner.entries.keys, Std.HashMap.distinct_keys, fun k => ?_, ?_⟩
    · rw [Std.HashMap.contains_keys, Std.HashMap.contains_eq_isSome_getElem?]
      exact congrArg Option.isSome (Stack.get_inner () stack k).2
    · rw [Std.HashMap.length_keys]
      exact (Stack.size_inner () stack).2
  | @weak s t tiers =>
    have hbacked := tiers.inner.2
    refine ⟨s.inner.contents.drain.entries.keys, Std.HashMap.distinct_keys, fun k => ?_, ?_⟩
    · have hget := (Stack.get_inner inUse s k).2.trans (Tier.get_contents inUse s.inner k).2
      rw [hbacked.find] at hget
      rw [Std.HashMap.contains_keys, Std.HashMap.contains_eq_isSome_getElem?]
      exact (congrArg Option.isSome hget).trans Option.isSome_map
    · rw [Std.HashMap.length_keys]
      exact (Stack.size_inner inUse s).2.trans (Tier.size_contents s.inner).2

/-- A lookup meets no handle whose value is gone. -/
theorem Settles.isAlive {c d : Chain K V} (h : Settles c d) (inUse : V → Bool) {t : Tier K V}
    (ht : c.tier? = some t) {k : K} {handle : Handle K V}
    (hg : (t.drain.cache.under.get () k).answer = some handle) :
    t.drain.cache.isAlive inUse handle.referent = true := by
  cases h with
  | strong stack => cases ht
  | weak tiers =>
    cases ht
    exact Tier.isAlive_of_found tiers.inner.2 inUse hg

end ResultCache.Chain
