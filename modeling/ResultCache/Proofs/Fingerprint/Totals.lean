import Mathlib.Algebra.BigOperators.Fin
import Mathlib.Algebra.Order.BigOperators.Group.List
import Mathlib.Data.List.GetD
import Mathlib.Tactic.Ring
import ResultCache.Proofs.Fingerprint.Equality

/-! The hash, the checksum and the count of a fingerprint as functions of the weights of its parts. All of
them are sums that are cut off to a word at each step, and cutting them off once at the end is the same. -/
namespace ResultCache.Fingerprint

def weights (parts : List Part) : List Int := parts.map fun p => p.weight.toInt

/-- The hash before it is cut off to a word. Each weight counts as often as its place says, and is multiplied
once for each part after it. -/
def hashSum (ws : List Int) : Int :=
  17 * 37 ^ ws.length + ∑ i : Fin ws.length, 37 ^ (ws.length - (i + 1)) * (i + 1) * ws[i]

private theorem hashSum_eq (ws : List Int) : hashSum ws = 17 * 37 ^ ws.length +
    ∑ i ∈ Finset.range ws.length, 37 ^ (ws.length - (i + 1)) * ((i : Int) + 1) * ws.getD i 0 := by
  rw [hashSum, Finset.sum_range]
  congr 1
  refine Finset.sum_congr rfl fun i _ => ?_
  rw [List.getD_eq_getElem ws 0 i.isLt]
  rfl

/-- One more weight multiplies what there is once more, and counts as often as there are weights then. -/
theorem hashSum_append_singleton (ws : List Int) (w : Int) :
    hashSum (ws ++ [w]) = 37 * hashSum ws + w * (ws.length + 1) := by
  have hearlier : ∑ i ∈ Finset.range ws.length,
      37 ^ (ws.length + 1 - (i + 1)) * ((i : Int) + 1) * (ws ++ [w]).getD i 0 =
      37 * ∑ i ∈ Finset.range ws.length, 37 ^ (ws.length - (i + 1)) * ((i : Int) + 1) * ws.getD i 0 := by
    rw [Finset.mul_sum]
    refine Finset.sum_congr rfl fun i hi => ?_
    have hlt := Finset.mem_range.mp hi
    rw [List.getD_append _ _ _ _ hlt, Nat.sub_add_comm hlt, pow_succ']
    ring
  have hlast : (ws ++ [w]).getD ws.length 0 = w := by
    rw [List.getD_append_right _ _ _ _ (Nat.le_refl _), Nat.sub_self]
    rfl
  rw [hashSum_eq, hashSum_eq, List.length_append, List.length_singleton, Finset.sum_range_succ,
    hearlier, hlast, Nat.sub_self, pow_succ']
  ring

theorem weights_append_singleton (parts : List Part) (p : Part) :
    weights (parts ++ [p]) = weights parts ++ [p.weight.toInt] := List.map_append

@[simp] theorem length_weights (parts : List Part) : (weights parts).length = parts.length := List.length_map _

theorem hash_ofParts (parts : List Part) :
    (ofParts parts).hash = Int32.ofInt (hashSum (weights parts)) := by
  induction parts using List.reverseRecOn with
  | nil => rfl
  | append_singleton parts p ih =>
    have hcount : (ofParts parts).count + 1 = Int32.ofInt ((weights parts).length + 1) := by
      rw [(IsMadeOfParts.ofParts parts).count_eq, ← Array.length_toList, parts_ofParts, Int32.ofInt_add,
        Int32.ofInt_eq_ofNat, length_weights]
      rfl
    rw [ofParts_append_singleton, weights_append_singleton, hashSum_append_singleton, Int32.ofInt_add,
      Int32.ofInt_mul, Int32.ofInt_mul, ← ih, ← hcount, Int32.ofInt_toInt]
    rfl

theorem checksum_ofParts (parts : List Part) :
    (ofParts parts).checksum = Int64.ofInt (weights parts).sum := by
  induction parts using List.reverseRecOn with
  | nil => rfl
  | append_singleton parts p ih =>
    rw [ofParts_append_singleton, weights_append_singleton, List.sum_append, List.sum_singleton,
      Int64.ofInt_add, ← ih, Int64.ofInt_int32ToInt]
    rfl

/-- A weight is a word of half the length of the checksum. -/
theorem bounds_of_mem_weights {parts : List Part} {w : Int} (h : w ∈ weights parts) :
    -2 ^ 31 ≤ w ∧ w ≤ 2 ^ 31 - 1 := by
  obtain ⟨p, -, rfl⟩ := List.mem_map.mp h
  exact ⟨p.weight.le_toInt, Int.le_sub_one_of_lt p.weight.toInt_lt⟩

/-- The sum of as many weights as there are weights at all fits in the checksum. -/
theorem sum_weights_bounds {parts : List Part} (h : parts.length ≤ 2 ^ 32) :
    -2 ^ 63 ≤ (weights parts).sum ∧ (weights parts).sum < 2 ^ 63 := by
  have hlow := List.card_nsmul_le_sum (weights parts) _ fun _ hw => (bounds_of_mem_weights hw).1
  have hhigh := List.sum_le_card_nsmul (weights parts) _ fun _ hw => (bounds_of_mem_weights hw).2
  rw [length_weights, nsmul_eq_mul] at hlow hhigh
  omega

namespace IsMadeOfParts
variable {f : Fingerprint}

theorem hash_eq (h : f.IsMadeOfParts) : f.hash = Int32.ofInt (hashSum (weights f.parts.toList)) :=
  (congrArg hash h).trans (hash_ofParts _)

theorem checksum_eq (h : f.IsMadeOfParts) : f.checksum = Int64.ofInt (weights f.parts.toList).sum :=
  (congrArg checksum h).trans (checksum_ofParts _)

/-- Up to as many parts as there are weights, the checksum is the sum itself. -/
theorem toInt_checksum (h : f.IsMadeOfParts) (hlength : f.parts.toList.length ≤ 2 ^ 32) :
    f.checksum.toInt = (weights f.parts.toList).sum := by
  obtain ⟨hlow, hhigh⟩ := sum_weights_bounds hlength
  rw [h.checksum_eq, Int64.toInt_ofInt_of_le hlow hhigh]

end IsMadeOfParts

theorem isImmutable_foldl_push (f : Fingerprint) (parts : List Part) :
    (parts.foldl push f).isImmutable = f.isImmutable := by
  induction parts generalizing f with
  | nil => rfl
  | cons p parts ih => exact ih (f.push p)

private theorem guarded_eq_error_iff {α : Type} {refuses : Bool} {e e' : Error} {x : α} :
    (if refuses then Except.error e else .ok x) = .error e' ↔ refuses = true ∧ e' = e := by
  cases refuses <;> simp [eq_comm]

theorem update_eq_error_iff {f : Fingerprint} {p : Part} {e : Error} :
    f.update p = .error e ↔ f.isImmutable = true ∧ e = .forbidden "update" := by
  rw [update, guarded_eq_error_iff]

theorem updateAll_eq_error_iff {f : Fingerprint} {parts : List Part} {e : Error} :
    f.updateAll parts = .error e ↔ f.isImmutable = true ∧ e = .forbidden "update_all" := by
  rw [updateAll, guarded_eq_error_iff]

/-- Only the null fingerprint is immutable, and it stays as it was made. -/
theorem Reached.eq_null_of_isImmutable {f : Fingerprint} (hf : f.Reached) (h : f.isImmutable = true) :
    f = Fingerprint.null := by
  induction hf with
  | empty => cases h
  | null => rfl
  | ofParts parts => cases h.symm.trans (isImmutable_foldl_push Fingerprint.empty parts)
  | statement s => cases h.symm.trans (isImmutable_foldl_push Fingerprint.empty s.parts)
  | @update f p _ ih =>
    cases hf : f.isImmutable with
    | true =>
      rw [attempt_of_error (update_eq_error_iff.mpr ⟨hf, rfl⟩)]
      exact ih hf
    | false =>
      rw [attempt, Fingerprint.update, hf] at h
      cases h.symm.trans hf
  | @updateAll f parts _ ih =>
    cases hf : f.isImmutable with
    | true =>
      rw [attempt_of_error (updateAll_eq_error_iff.mpr ⟨hf, rfl⟩)]
      exact ih hf
    | false =>
      rw [attempt, Fingerprint.updateAll, hf] at h
      cases h.symm.trans ((isImmutable_foldl_push f parts).trans hf)

/-- However a fingerprint came about, it has recorded the parts it was given, its hash is one polynomial in the
multiplier and its count the number of these parts, each cut off to a word. Up to as many parts as there are weights the checksum is exactly the sum of
the weights, after each part, and the order of the parts never matters to it. A change is refused by the
null fingerprint alone, which then stays as it is and never has any parts. -/
theorem totals_closed_form {f : Fingerprint} (hf : f.Reached) :
    let parts := f.parts.toList
    (∀ given, f.Given given ↔ parts = given) ∧
    f.hash.toInt = (hashSum (weights parts)).bmod (2 ^ 32) ∧
    f.count.toInt = (parts.length : Int).bmod (2 ^ 32) ∧
    (parts.length ≤ 2 ^ 32 → f.checksum.toInt = (weights parts).sum ∧
      ∀ n, (ofParts (parts.take n)).checksum.toInt = (weights (parts.take n)).sum) ∧
    (∀ g : Fingerprint, g.Reached → g.parts.toList.Perm parts → g.checksum = f.checksum) ∧
    (∀ p, (∃ e, f.update p = .error e) ↔ f.isImmutable = true) ∧
    (∀ ps, (∃ e, f.updateAll ps = .error e) ↔ f.isImmutable = true) ∧
    (∀ p e, f.update p = .error e → e = .forbidden "update" ∧ f.attempt (·.update p) = f) ∧
    (∀ ps e, f.updateAll ps = .error e → e = .forbidden "update_all" ∧ f.attempt (·.updateAll ps) = f) ∧
    (f.isImmutable = true → f = null ∧ parts = []) := by
  intro parts
  have hmade := hf.isMadeOfParts
  refine ⟨fun given => hf.given_iff, ?_, ?_, fun hlength => ⟨hmade.toInt_checksum hlength, fun n => ?_⟩, fun g hg hperm => ?_,
    fun p => ?_, fun ps => ?_, fun p e he => ?_, fun ps e he => ?_, fun himm => ?_⟩
  · rw [hmade.hash_eq, Int32.toInt_ofInt]
    rfl
  · rw [hmade.count_eq, Int32.toInt_ofNat', ← Array.length_toList]
    rfl
  · have hearlier := (IsMadeOfParts.ofParts (parts.take n)).toInt_checksum
    rw [parts_ofParts] at hearlier
    exact hearlier ((List.length_take_le' n parts).trans hlength)
  · rw [hg.isMadeOfParts.checksum_eq, hmade.checksum_eq]
    exact congrArg Int64.ofInt (hperm.map _).sum_eq
  · exact ⟨fun ⟨e, he⟩ => (update_eq_error_iff.mp he).1, fun h => ⟨_, update_eq_error_iff.mpr ⟨h, rfl⟩⟩⟩
  · exact ⟨fun ⟨e, he⟩ => (updateAll_eq_error_iff.mp he).1,
      fun h => ⟨_, updateAll_eq_error_iff.mpr ⟨h, rfl⟩⟩⟩
  · exact ⟨(update_eq_error_iff.mp he).2, attempt_of_error he⟩
  · exact ⟨(updateAll_eq_error_iff.mp he).2, attempt_of_error he⟩
  · have hnull := hf.eq_null_of_isImmutable himm
    exact ⟨hnull, congrArg (fun f : Fingerprint => f.parts.toList) hnull⟩

/-- The least weight there is comes second, so it is cut off in the hash and not in the checksum. A refused
part leaves nothing behind. -/
theorem totals_of_least_weight :
    let f := (ofParts [.null, .int 2147483648]).attempt (·.updateAll [.text "a"])
    let g := null.attempt (·.update (.text "a"))
    f.hash.toInt = 862761 ∧ f.checksum.toInt = -2147483550 ∧ g = null := by
  intro f g
  have hf : f.Reached := .updateAll _ (.ofParts _)
  have hg : g.Reached := .update _ .null
  obtain ⟨hgiven, hhash, -, hchecksum, -⟩ := totals_closed_form hf
  obtain ⟨-, -, -, -, -, -, -, -, -, hnull⟩ := totals_closed_form hg
  have haccepted : f.Given ([.null, .int 2147483648] ++ [.text "a"]) := .updateAll (.ofParts _) rfl
  have hparts : f.parts.toList = [.null, .int 2147483648, .text "a"] := (hgiven _).mp haccepted
  have hw : weights f.parts.toList = [1, -2147483648, 97] := by rw [hparts]; decide
  have hlength : f.parts.toList.length ≤ 2 ^ 32 := by rw [hparts]; decide
  rw [hw] at hhash
  rw [(hchecksum hlength).1, hw, hhash]
  exact ⟨by decide, by decide, (hnull rfl).1⟩

end ResultCache.Fingerprint
