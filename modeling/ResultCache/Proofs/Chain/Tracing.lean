import ResultCache.Proofs.Chain.Layers
import ResultCache.Proofs.Tier.Tracing

/-! Chains that differ in what their logging layers have counted. No call tells them apart, no work on the
queue does, and no change of a layer. -/
namespace ResultCache

theorem rel_map {α β α' β' : Type} {R : α → β → Prop} {Q : α' → β' → Prop} {x : Option α}
    {y : Option β} (h : Option.Rel R x y) {f : α → α'} {g : β → β'} (hfg : ∀ a b, R a b → Q (f a) (g b)) :
    Option.Rel Q (x.map f) (y.map g) := by
  cases h with
  | some h => exact .some (hfg _ _ h)
  | none => exact .none

namespace Stack
variable {σ ω K V : Type} [BEq K] [Hashable K] {R : σ → σ → Prop} {s t : Stack σ K}

theorem Beside.height (h : Beside R s t) : s.height = t.height := by
  induction h with
  | core inner => rfl
  | lru capacity recency under ih => exact congrArg (· + 1) ih
  | logging stats stats' under ih => exact congrArg (· + 1) ih

theorem Beside.setCapacity? (h : Beside R s t) (layer capacity : Nat) :
    Option.Rel (Beside R) (s.setCapacity? layer capacity) (t.setCapacity? layer capacity) := by
  induction h with
  | core inner => exact .none
  | lru old recency under ih =>
    rw [Stack.setCapacity?, Stack.setCapacity?, under.height]
    split
    · exact .some (.lru capacity recency under)
    · exact rel_map ih fun _ _ => .lru old recency
  | logging stats stats' under ih => exact rel_map ih fun _ _ => .logging stats stats'

theorem Beside.unwrap? (h : Beside R s t) : Option.Rel (Beside R) s.unwrap? t.unwrap? := by
  cases h with
  | core inner => exact .none
  | lru capacity recency under => exact .some under
  | logging stats stats' under => exact .none

theorem name_inner [Cache σ ω K V] (s : Stack σ K) : s.name = Cache.name s.inner := by
  induction s with
  | core cache => rfl
  | lru capacity recency under ih => exact ih
  | logging stats under ih => exact ih

end Stack

namespace Chain
open Stack (Beside)
variable {K V : Type} [BEq K] [Hashable K] [BEq V] [Hashable V]

/-- Related chains answer every call alike, with the same traces, and do the same work on their queues. -/
structure Indistinct (C : Chain K V → Chain K V → Prop) : Prop where
  tracing : ∀ inUse, Cache.Tracing C inUse
  name : ∀ {c d}, C c d → c.name = d.name
  owners : ∀ {c d}, C c d → ∀ v, c.owners v = d.owners v
  onQueue? : ∀ {c d}, C c d → ∀ {α : Type} (f : Queue K V → α × Queue K V),
    Option.Rel (fun x y => x.1 = y.1 ∧ C x.2 y.2) (c.onQueue? f) (d.onQueue? f)
  collect? : ∀ {c d}, C c d → ∀ inUse,
    Option.Rel (fun x y => x.1 = y.1 ∧ C x.2 y.2) (c.collect? inUse) (d.collect? inUse)

/-- Chains of one kind that surround storage, or a tier, by related stacks. -/
inductive Over (S : Stack (Store K V) K → Stack (Store K V) K → Prop)
    (W : Stack (Tier K V) K → Stack (Tier K V) K → Prop) : Chain K V → Chain K V → Prop
  | strong {s t : Stack (Store K V) K} (h : S s t) : Over S W (.strong s) (.strong t)
  | weak {s t : Stack (Tier K V) K} (h : W s t) : Over S W (.weak s) (.weak t)

theorem Over.tracing {S : Stack (Store K V) K → Stack (Store K V) K → Prop}
    {W : Stack (Tier K V) K → Stack (Tier K V) K → Prop} {inUse : V → Bool} (hS : Cache.Tracing S ())
    (hW : Cache.Tracing W inUse) : Cache.Tracing (Over S W) inUse where
  put h k v := by
    cases h with
    | strong h => exact (hS.put h k v).map fun _ _ => .strong
    | weak h => exact (hW.put h k v).map fun _ _ => .weak
  get h k := by
    cases h with
    | strong h => exact (hS.get h k).map fun _ _ => .strong
    | weak h => exact (hW.get h k).map fun _ _ => .weak
  remove h k := by
    cases h with
    | strong h => exact (hS.remove h k).map fun _ _ => .strong
    | weak h => exact (hW.remove h k).map fun _ _ => .weak
  size h := by
    cases h with
    | strong h => exact (hS.size h).map fun _ _ => .strong
    | weak h => exact (hW.size h).map fun _ _ => .weak
  clear h := by
    cases h with
    | strong h => exact (hS.clear h).map fun _ _ => .strong
    | weak h => exact (hW.clear h).map fun _ _ => .weak

/-- Chains that are the same but for the counts of calls. -/
inductive Alike : Chain K V → Chain K V → Prop
  | strong {s t : Stack (Store K V) K} (beside : Beside (fun a b => b = a) s t) :
    Alike (.strong s) (.strong t)
  | weak {s t : Stack (Tier K V) K} (beside : Beside Tier.Alike s t) : Alike (.weak s) (.weak t)

theorem alike_eq_over : Alike (K := K) (V := V) = Over (Beside fun a b => b = a) (Beside Tier.Alike) := by
  funext c d
  refine propext ⟨fun h => ?_, fun h => ?_⟩
  · cases h with
    | strong beside => exact .strong beside
    | weak beside => exact .weak beside
  · cases h with
    | strong beside => exact .strong beside
    | weak beside => exact .weak beside

theorem tracing (inUse : V → Bool) : Cache.Tracing (Alike (K := K)) inUse := by
  rw [alike_eq_over]
  exact Over.tracing (Stack.tracing (.eq ())) (Stack.tracing (Tier.tracing inUse))

variable {c d : Chain K V}

theorem Alike.name (h : c.Alike d) : c.name = d.name := by
  cases h with
  | @strong s t beside =>
    rw [Chain.name, Chain.name, Stack.name_inner, Stack.name_inner, beside.inner]
  | @weak s t beside =>
    rw [Chain.name, Chain.name, Stack.name_inner, Stack.name_inner]
    change s.inner.under.name = t.inner.under.name
    rw [Stack.name_inner, Stack.name_inner, beside.inner.under.inner]

theorem Alike.owners (h : c.Alike d) (v : V) : c.owners v = d.owners v := by
  cases h with
  | strong beside => rw [Chain.owners, Chain.owners, beside.inner]
  | weak beside => exact beside.inner.owners v

/-- Work on the tier that depends on its queue and its pins alone is the same in both chains. -/
theorem Alike.onTier? {α : Type} {f : Tier K V → α × Tier K V} (h : c.Alike d)
    (hf : ∀ {t u}, t.Alike u → (f t).1 = (f u).1 ∧ (f t).2.Alike (f u).2) :
    Option.Rel (fun x y => x.1 = y.1 ∧ x.2.Alike y.2) (c.onTier? f) (d.onTier? f) := by
  cases h with
  | strong beside => exact .none
  | weak beside =>
    obtain ⟨hanswer, htier⟩ := hf beside.inner
    exact .some ⟨hanswer, .weak (beside.mapInner fun _ _ _ => htier)⟩

theorem Alike.onQueue? (h : c.Alike d) {α : Type} (f : Queue K V → α × Queue K V) :
    Option.Rel (fun x y => x.1 = y.1 ∧ x.2.Alike y.2) (c.onQueue? f) (d.onQueue? f) :=
  h.onTier? fun ⟨hunder⟩ => ⟨rfl, ⟨hunder⟩⟩

theorem Alike.collect? (h : c.Alike d) (inUse : V → Bool) :
    Option.Rel (fun x y => x.1 = y.1 ∧ x.2.Alike y.2) (c.collect? inUse) (d.collect? inUse) :=
  h.onTier? fun ⟨hunder⟩ => ⟨rfl, ⟨hunder⟩⟩

theorem Alike.indistinct : Indistinct (Alike (K := K) (V := V)) where
  tracing := tracing
  name h := h.name
  owners h := h.owners
  onQueue? h := h.onQueue?
  collect? h := h.collect?

theorem Alike.setCapacity? (h : c.Alike d) (layer capacity : Nat) :
    Option.Rel Alike (c.setCapacity? layer capacity) (d.setCapacity? layer capacity) := by
  cases h with
  | strong beside => exact rel_map (beside.setCapacity? layer capacity) fun _ _ => .strong
  | @weak s t beside =>
    have hunder := beside.inner.under
    rw [Chain.setCapacity?, Chain.setCapacity?, hunder.height]
    split
    · exact rel_map (beside.setCapacity? _ capacity) fun _ _ => .weak
    · refine rel_map (hunder.setCapacity? layer capacity) fun a b hab => ?_
      exact .weak (beside.mapInner fun _ _ ⟨_⟩ => ⟨hab⟩)

theorem Alike.setPinCount? (h : c.Alike d) (layer pinCount : Nat) :
    Option.Rel Alike (c.setPinCount? layer pinCount) (d.setPinCount? layer pinCount) := by
  cases h with
  | strong beside => exact .none
  | weak beside =>
    rw [Chain.setPinCount?, Chain.setPinCount?, beside.inner.under.height]
    split
    · exact .some (.weak (beside.mapInner fun _ _ ⟨hunder⟩ => ⟨hunder⟩))
    · exact .none

theorem Alike.unwrap? (h : c.Alike d) : Option.Rel Alike c.unwrap? d.unwrap? := by
  cases h with
  | strong beside => exact rel_map beside.unwrap? fun _ _ => .strong
  | weak beside => exact rel_map beside.unwrap? fun _ _ => .weak

end Chain
end ResultCache
