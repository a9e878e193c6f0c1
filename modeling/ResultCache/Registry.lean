import ResultCache.Bag

/-!
Registries: values under keys, together with a bag of them, so that it is known at once whether a
value is registered at all and under how many keys.
-/

namespace ResultCache

/-- The values of a map, each as often as there are keys for it. -/
def Registry.valuesOf {K V : Type} [BEq K] [Hashable K] (m : Std.HashMap K V) : List V :=
  m.toList.map Prod.snd

structure Registry (K V : Type) [BEq K] [Hashable K] [BEq V] [Hashable V] where
  entries : Std.HashMap K V
  bag : Bag V
  count_bag [EquivBEq K] [LawfulHashable K] [EquivBEq V] [LawfulHashable V] (v : V) :
    bag.count v = (Registry.valuesOf entries).count v

section

variable {K V : Type} [BEq K] [BEq V]

private theorem count_filter_of_mem [EquivBEq K] {k key : K} {old : V} (same : k == key) (v : V)
    (l : List (K × V)) (distinct : l.Pairwise fun a b => (a.1 == b.1) = false)
    (listed : (key, old) ∈ l) :
    (l.map Prod.snd).count v =
      ((l.filter fun entry => !(k == entry.1)).map Prod.snd).count v +
        if old == v then 1 else 0 := by
  induction l with
  | nil => cases listed
  | cons entry l ih =>
    obtain ⟨apart, distinct⟩ := List.pairwise_cons.mp distinct
    rcases List.mem_cons.mp listed with rfl | listed
    · have rest : l.filter (fun entry => !(k == entry.1)) = l := by
        rw [List.filter_eq_self]
        intro entry member
        rw [Bool.not_eq_true', BEq.congr_left same]
        exact apart entry member
      rw [List.filter_cons_of_neg (by rw [same]; exact Bool.false_ne_true), rest, List.map_cons,
        List.count_cons]
    · have other : (k == entry.1) = false := by
        rw [BEq.congr_left same, BEq.comm]
        exact apart _ listed
      rw [List.filter_cons_of_pos (by simp only [other, Bool.not_false]), List.map_cons,
        List.map_cons, List.count_cons, List.count_cons, ih distinct listed]
      omega

variable [Hashable K] [EquivBEq K] [LawfulHashable K]

private theorem count_valuesOf (m : Std.HashMap K V) (k : K) (v : V) :
    (Registry.valuesOf m).count v =
      ((m.toList.filter fun entry => !(k == entry.1)).map Prod.snd).count v +
        m[k]?.elim 0 fun old => if old == v then 1 else 0 := by
  cases found : m[k]? with
  | none =>
    have rest : m.toList.filter (fun entry => !(k == entry.1)) = m.toList := by
      rw [List.filter_eq_self]
      intro entry member
      rw [Bool.not_eq_true', Bool.eq_false_iff]
      intro same
      have := Std.HashMap.getElem?_eq_some_iff_exists_beq_and_mem_toList.mpr ⟨_, same, member⟩
      rw [found] at this
      cases this
    rw [rest, Registry.valuesOf, Option.elim_none, Nat.add_zero]
  | some old =>
    obtain ⟨key, same, listed⟩ :=
      Std.HashMap.getElem?_eq_some_iff_exists_beq_and_mem_toList.mp found
    exact count_filter_of_mem same v m.toList Std.HashMap.distinct_keys_toList listed

private theorem count_valuesOf_insert (m : Std.HashMap K V) (k : K) (new v : V) :
    (Registry.valuesOf (m.insert k new)).count v =
      ((m.toList.filter fun entry => !(k == entry.1)).map Prod.snd).count v +
        if new == v then 1 else 0 := by
  have perm := (Std.HashMap.toList_insert_perm (m := m) (k := k) (v := new)).map Prod.snd
  rw [Registry.valuesOf, perm.count_eq, List.map_cons, List.count_cons]
  simp only [Bool.not_eq_true, Bool.decide_eq_false]

private theorem count_valuesOf_erase (m : Std.HashMap K V) (k : K) (v : V) :
    (Registry.valuesOf (m.erase k)).count v =
      ((m.toList.filter fun entry => !(k == entry.1)).map Prod.snd).count v := by
  have same : (m.erase k).Equiv (m.filter fun key _ => !(k == key)) := by
    apply Std.HashMap.Equiv.of_forall_getKey_eq_of_forall_getElem?_eq
    · intro key inErased inFiltered
      rw [Std.HashMap.getKey_erase, Std.HashMap.getKey_filter]
    · intro key
      rw [Std.HashMap.getElem?_erase, Std.HashMap.getElem?_filter]
      simp only [BEq.congr_right (Std.HashMap.getKey_beq _), Option.pfilter_eq_filter]
      cases m[key]? with
      | none => rw [Option.filter_none, ite_self]
      | some old => cases h : k == key <;> rfl
  rw [Registry.valuesOf, (same.toList_perm.map Prod.snd).count_eq,
    (Std.HashMap.toList_filter.map Prod.snd).count_eq]

end

namespace Registry

variable {K V : Type} [BEq K] [Hashable K] [BEq V] [Hashable V]

def empty : Registry K V := ⟨∅, .empty, fun v => by
  rw [Bag.count_empty, valuesOf, Std.HashMap.toList_empty]; rfl⟩

def get? (r : Registry K V) (k : K) : Option V := r.entries[k]?

def size (r : Registry K V) : Nat := r.entries.size

def values (r : Registry K V) : List V := valuesOf r.entries

/-- The number of keys under which a value is registered. -/
def count (r : Registry K V) (v : V) : Nat := r.bag.count v

def contains (r : Registry K V) (v : V) : Bool := r.bag.contains v

private theorem count_rest [EquivBEq K] [LawfulHashable K] [EquivBEq V] [LawfulHashable V]
    (entries : Std.HashMap K V) (bag : Bag V) (v : V)
    (total : bag.count v = (valuesOf entries).count v) (k : K) :
    (entries[k]?.elim bag bag.erase).count v =
      ((entries.toList.filter fun entry => !(k == entry.1)).map Prod.snd).count v := by
  rw [count_valuesOf _ k] at total
  cases found : entries[k]? with
  | none => rw [Option.elim_none, total, found, Option.elim_none, Nat.add_zero]
  | some old =>
    rw [Option.elim_some, Bag.count_erase, total, found, Option.elim_some, Nat.add_sub_cancel]

/-- Registers a value in place of the one that was under the key. Of two equal keys the one given
last is kept, although the first could be kept as well: keys are only compared, so no result depends
on which of them stands for both. -/
def insert (r : Registry K V) (k : K) (v : V) : Registry K V :=
  let ⟨entries, bag, count_bag⟩ := r
  let old := entries[k]?
  ⟨entries.insert k v, (old.elim bag bag.erase).insert v, fun w => by
    rw [Bag.count_insert, count_rest entries bag w (count_bag w), count_valuesOf_insert]⟩

def erase (r : Registry K V) (k : K) : Registry K V :=
  let ⟨entries, bag, count_bag⟩ := r
  let old := entries[k]?
  ⟨entries.erase k, old.elim bag bag.erase, fun v => by
    rw [count_rest entries bag v (count_bag v), count_valuesOf_erase]⟩

@[simp] theorem entries_insert (r : Registry K V) (k : K) (v : V) :
    (r.insert k v).entries = r.entries.insert k v := rfl

@[simp] theorem entries_erase (r : Registry K V) (k : K) : (r.erase k).entries = r.entries.erase k := rfl

def filter (r : Registry K V) (keeps : V → Bool) : Registry K V :=
  let entries := r.entries.filter fun _ v => keeps v
  ⟨entries, .ofList (valuesOf entries), Bag.count_ofList _⟩

@[simp] theorem entries_filter (r : Registry K V) (keeps : V → Bool) :
    (r.filter keeps).entries = r.entries.filter fun _ v => keeps v := rfl

theorem count_eq [EquivBEq K] [LawfulHashable K] [EquivBEq V] [LawfulHashable V]
    (r : Registry K V) (v : V) : r.count v = r.values.count v :=
  r.count_bag v

end Registry
end ResultCache
