import ResultCache.Bag

/-!
The values found last, each as often as it was found. They stand in two lists, so that a value is
put in at one end and the oldest is taken out at the other without a walk over all of them; a bag
counts them.
-/

namespace ResultCache

structure Pins (V : Type) [BEq V] [Hashable V] where
  /-- The one found last in front. -/
  newer : List V
  /-- Those found before the newer ones, the one found first in front. -/
  older : List V
  size : Nat
  bag : Bag V
  size_eq : size = newer.length + older.length
  count_bag [EquivBEq V] [LawfulHashable V] (v : V) : bag.count v = newer.count v + older.count v

namespace Pins

variable {V : Type} [BEq V] [Hashable V]

def empty : Pins V := ⟨[], [], 0, .empty, rfl, Bag.count_empty⟩

/-- All pinned values, the one found last in front. -/
def toList (p : Pins V) : List V := p.newer ++ p.older.reverse

def count (p : Pins V) (v : V) : Nat := p.bag.count v

def contains (p : Pins V) (v : V) : Bool := p.bag.contains v

def push (p : Pins V) (v : V) : Pins V where
  newer := v :: p.newer
  older := p.older
  size := p.size + 1
  bag := p.bag.insert v
  size_eq := by rw [p.size_eq, List.length_cons]; omega
  count_bag w := by rw [Bag.count_insert, p.count_bag, List.count_cons]; omega

/-- Takes out the value found first. When no older value is left, the newer ones are turned over. -/
def dropOldest (p : Pins V) : Pins V :=
  match older : p.older with
  | v :: rest =>
    { newer := p.newer
      older := rest
      size := p.size - 1
      bag := p.bag.erase v
      size_eq := by rw [p.size_eq, older, List.length_cons]; omega
      count_bag w := by rw [Bag.count_erase, p.count_bag, older, List.count_cons]; omega }
  | [] =>
    match turned : p.newer.reverse with
    | v :: rest =>
      { newer := []
        older := rest
        size := p.size - 1
        bag := p.bag.erase v
        size_eq := by
          rw [p.size_eq, older, ← List.length_reverse, turned, List.length_cons, List.length_nil]
          omega
        count_bag w := by
          rw [Bag.count_erase, p.count_bag, older, ← List.count_reverse, turned, List.count_cons,
            List.count_nil]
          omega }
    | [] => p

@[simp] theorem toList_empty : (empty : Pins V).toList = [] := rfl

@[simp] theorem contains_empty (v : V) : (empty : Pins V).contains v = false := by
  rw [contains, empty, Bag.contains, Bag.count_empty]
  rfl

@[simp] theorem length_toList (p : Pins V) : p.toList.length = p.size := by
  rw [toList, List.length_append, List.length_reverse, p.size_eq]

theorem count_eq [EquivBEq V] [LawfulHashable V] (p : Pins V) (v : V) :
    p.count v = p.toList.count v := by
  rw [count, p.count_bag, toList, List.count_append, List.count_reverse]

@[simp] theorem toList_push (p : Pins V) (v : V) : (p.push v).toList = v :: p.toList := rfl

@[simp] theorem toList_dropOldest (p : Pins V) : p.dropOldest.toList = p.toList.dropLast := by
  rw [dropOldest]
  split
  · next older =>
    simp only [toList, older, List.reverse_cons, ← List.append_assoc, List.dropLast_concat]
  · next older =>
    split
    · next turned =>
      have newer := congrArg List.reverse turned
      rw [List.reverse_reverse] at newer
      simp only [toList, older, newer, List.reverse_cons, List.reverse_nil, List.nil_append,
        List.append_nil, List.dropLast_concat]
    · next turned =>
      rw [List.reverse_eq_nil_iff] at turned
      simp only [toList, older, turned, List.reverse_nil, List.append_nil, List.dropLast_nil]

end Pins
end ResultCache
