import Mathlib.Data.List.Induction
import ResultCache.Statement

/-! However a fingerprint came about, its parts are those it was given, and its hash, checksum and count are
those of its parts in order. -/
namespace ResultCache.Fingerprint

/-- The fingerprint after an attempt to change it: a refused attempt leaves it as it is. -/
def attempt (f : Fingerprint) (change : Fingerprint → Except Error Fingerprint) : Fingerprint :=
  (change f).toOption.getD f

/-- The fingerprints that a program can have. A copy is the same fingerprint. -/
inductive Reached : Fingerprint → Prop where
  | empty : Reached empty
  | null : Reached null
  | ofParts (parts : List Part) : Reached (ofParts parts)
  | statement (s : Statement) : Reached s.fingerprint
  | update {f : Fingerprint} (p : Part) : Reached f → Reached (f.attempt (·.update p))
  | updateAll {f : Fingerprint} (parts : List Part) : Reached f → Reached (f.attempt (·.updateAll parts))

/-- The parts that a fingerprint was given, in this order: those it was made of, and then those of every accepted
change. A statement gives its four fields, its parameters, and its environment if it has one. -/
inductive Given : Fingerprint → List Part → Prop where
  | empty : Given empty []
  | null : Given null []
  | ofParts (parts : List Part) : Given (ofParts parts) parts
  | statement (s : Statement) : Given s.fingerprint
      (.text s.id :: toPart s.offset :: toPart s.limit :: .text s.sql ::
        (s.params ++ s.environment.toList.map .text))
  | update {f g : Fingerprint} {parts : List Part} {p : Part} :
      Given f parts → f.update p = .ok g → Given g (parts ++ [p])
  | updateAll {f g : Fingerprint} {parts more : List Part} :
      Given f parts → f.updateAll more = .ok g → Given g (parts ++ more)

/-- The fingerprint is made of its parts alone, apart from whether it may change. -/
def IsMadeOfParts (f : Fingerprint) : Prop :=
  f = { ofParts f.parts.toList with isImmutable := f.isImmutable }

theorem parts_foldl_push (f : Fingerprint) (parts : List Part) :
    (parts.foldl push f).parts.toList = f.parts.toList ++ parts := by
  induction parts generalizing f with
  | nil => rw [List.append_nil]; rfl
  | cons p parts ih =>
    rw [List.foldl_cons, ih]
    simp only [push, pushWeighted, Array.toList_push, List.append_assoc, List.singleton_append]

@[simp] theorem parts_ofParts (parts : List Part) : (ofParts parts).parts.toList = parts := by
  rw [ofParts, parts_foldl_push]
  rfl

/-- A refused change leaves the fingerprint as it is. -/
theorem attempt_of_error {f : Fingerprint} {change : Fingerprint → Except Error Fingerprint} {e : Error}
    (h : change f = .error e) : f.attempt change = f := by
  rw [attempt, h]
  rfl

theorem attempt_of_ok {f g : Fingerprint} {change : Fingerprint → Except Error Fingerprint}
    (h : change f = .ok g) : f.attempt change = g := by
  rw [attempt, h]
  rfl

private theorem guarded_eq_ok_iff {α : Type} {refuses : Bool} {e : Error} {x y : α} :
    (if refuses then Except.error e else .ok x) = .ok y ↔ refuses = false ∧ x = y := by
  cases refuses <;> simp

theorem parts_of_update {f g : Fingerprint} {p : Part} (h : f.update p = .ok g) :
    g.parts.toList = f.parts.toList ++ [p] := by
  rw [update, guarded_eq_ok_iff] at h
  rw [← h.2]
  exact parts_foldl_push f [p]

theorem parts_of_updateAll {f g : Fingerprint} {parts : List Part} (h : f.updateAll parts = .ok g) :
    g.parts.toList = f.parts.toList ++ parts := by
  rw [updateAll, guarded_eq_ok_iff] at h
  rw [← h.2]
  exact parts_foldl_push f parts

theorem Given.parts_eq {f : Fingerprint} {parts : List Part} (h : f.Given parts) : f.parts.toList = parts := by
  induction h with
  | empty => rfl
  | null => rfl
  | ofParts parts => exact parts_ofParts parts
  | statement s => exact parts_ofParts s.parts
  | update _ hg ih => rw [parts_of_update hg, ih]
  | updateAll _ hg ih => rw [parts_of_updateAll hg, ih]

theorem Reached.given {f : Fingerprint} (hf : f.Reached) : f.Given f.parts.toList := by
  induction hf with
  | empty => exact .empty
  | null => exact .null
  | ofParts parts => exact (parts_ofParts parts).symm ▸ .ofParts parts
  | statement s => exact (parts_ofParts s.parts).symm ▸ .statement s
  | @update f p _ ih =>
    cases hg : f.update p with
    | ok g =>
      rw [attempt_of_ok hg, parts_of_update hg]
      exact .update ih hg
    | error e =>
      rw [attempt_of_error hg]
      exact ih
  | @updateAll f parts _ ih =>
    cases hg : f.updateAll parts with
    | ok g =>
      rw [attempt_of_ok hg, parts_of_updateAll hg]
      exact .updateAll ih hg
    | error e =>
      rw [attempt_of_error hg]
      exact ih

/-- A fingerprint records the parts it was given, all of them and in the order in which they were given. -/
theorem Reached.given_iff {f : Fingerprint} (hf : f.Reached) {parts : List Part} :
    f.Given parts ↔ f.parts.toList = parts := by
  refine ⟨Given.parts_eq, fun h => ?_⟩
  subst h
  exact hf.given

theorem ofParts_append_singleton (parts : List Part) (p : Part) :
    ofParts (parts ++ [p]) = (ofParts parts).push p := by
  rw [ofParts, List.foldl_append]
  rfl

namespace IsMadeOfParts

theorem ofParts (parts : List Part) : IsMadeOfParts (Fingerprint.ofParts parts) := by
  rw [IsMadeOfParts, parts_ofParts]

theorem push {f : Fingerprint} (h : IsMadeOfParts f) (p : Part) : IsMadeOfParts (f.push p) := by
  have hp : (f.push p).parts.toList = f.parts.toList ++ [p] := parts_foldl_push f [p]
  rw [IsMadeOfParts, hp, ofParts_append_singleton]
  calc f.push p = Fingerprint.push { Fingerprint.ofParts f.parts.toList with isImmutable := f.isImmutable } p :=
        congrArg (·.push p) h
    _ = _ := rfl

theorem foldl_push {f : Fingerprint} (h : IsMadeOfParts f) (parts : List Part) :
    IsMadeOfParts (parts.foldl Fingerprint.push f) := by
  induction parts generalizing f with
  | nil => exact h
  | cons p parts ih => exact ih (h.push p)

/-- The count wraps around, and so do the other totals. -/
theorem count_eq {f : Fingerprint} (h : IsMadeOfParts f) : f.count = Int32.ofNat f.parts.size := by
  have hn : ∀ parts : List Part, (Fingerprint.ofParts parts).count = Int32.ofNat parts.length := by
    intro parts
    induction parts using List.reverseRecOn with
    | nil => rfl
    | append_singleton parts p ih =>
      rw [ofParts_append_singleton, List.length_append, Int32.ofNat_add, ← ih]
      rfl
  exact (congrArg count h).trans (hn f.parts.toList)

end IsMadeOfParts

theorem Reached.isMadeOfParts {f : Fingerprint} (h : Reached f) : IsMadeOfParts f := by
  induction h with
  | empty => rfl
  | null => rfl
  | ofParts parts => exact .ofParts parts
  | statement s => exact .ofParts s.parts
  | @update f p _ ih =>
    rw [attempt, Fingerprint.update]
    split
    · exact ih
    · exact ih.push p
  | @updateAll f parts _ ih =>
    rw [attempt, Fingerprint.updateAll]
    split
    · exact ih
    · exact ih.foldl_push parts

end ResultCache.Fingerprint
