import Std.Data.HashMap

/-!
Bags. A bag knows how many times each value is in it; adding, taking out and counting a value cost
the same however many there are.
-/

namespace ResultCache

structure Bag (V : Type) [BEq V] [Hashable V] where
  counts : Std.HashMap V Nat := ∅

namespace Bag

variable {V : Type} [BEq V] [Hashable V]

def empty : Bag V := {}

def count (b : Bag V) (v : V) : Nat := b.counts.getD v 0

def contains (b : Bag V) (v : V) : Bool := b.count v != 0

def insert (b : Bag V) (v : V) : Bag V := ⟨b.counts.insert v (b.count v + 1)⟩

/-- Takes a value out once, if it is there at all. -/
def erase (b : Bag V) (v : V) : Bag V :=
  match b.count v with
  | 0 => b
  | 1 => ⟨b.counts.erase v⟩
  | n + 2 => ⟨b.counts.insert v (n + 1)⟩

def ofList (values : List V) : Bag V := values.foldl insert empty

theorem contains_iff (b : Bag V) (v : V) : b.contains v = true ↔ 0 < b.count v := by
  rw [contains, bne_iff_ne, Nat.pos_iff_ne_zero]

@[simp] theorem count_empty (v : V) : (empty : Bag V).count v = 0 := Std.HashMap.getD_empty

variable [EquivBEq V] [LawfulHashable V]

/-- Equal values count as one. -/
theorem count_congr (b : Bag V) {v w : V} (h : v == w) : b.count v = b.count w :=
  Std.HashMap.getD_congr h

@[simp] theorem count_insert (b : Bag V) (w v : V) :
    (b.insert w).count v = b.count v + if w == v then 1 else 0 := by
  rw [count, insert, Std.HashMap.getD_insert]
  by_cases h : w == v
  · simp only [h, if_true, count_congr b h]
  · simp only [h, if_false, Nat.add_zero, count, Bool.false_eq_true]

@[simp] theorem count_erase (b : Bag V) (w v : V) :
    (b.erase w).count v = b.count v - if w == v then 1 else 0 := by
  by_cases h : w == v
  · have same := count_congr b h
    rw [erase]
    split <;> rename_i found <;> rw [found] at same
    · simp only [h, if_true, ← same, Nat.zero_sub]
    · rw [count, Std.HashMap.getD_erase]
      simp only [h, if_true, ← same, Nat.sub_self]
    · rw [count, Std.HashMap.getD_insert]
      simp only [h, if_true, ← same, Nat.succ_eq_add_one, Nat.add_sub_cancel]
  · rw [erase]
    split
    · simp only [h, Bool.false_eq_true, if_false, Nat.sub_zero]
    · rw [count, Std.HashMap.getD_erase]
      simp only [h, Bool.false_eq_true, if_false, Nat.sub_zero, count]
    · rw [count, Std.HashMap.getD_insert]
      simp only [h, Bool.false_eq_true, if_false, Nat.sub_zero, count]

private theorem count_foldl_insert (values : List V) (b : Bag V) (v : V) :
    (values.foldl insert b).count v = b.count v + values.count v := by
  induction values generalizing b with
  | nil => rfl
  | cons w values ih =>
    rw [List.foldl_cons, ih, count_insert, List.count_cons, Nat.add_assoc, Nat.add_comm (ite _ _ _)]

@[simp] theorem count_ofList (values : List V) (v : V) : (ofList values).count v = values.count v := by
  rw [ofList, count_foldl_insert, count_empty, Nat.zero_add]

end Bag
end ResultCache
