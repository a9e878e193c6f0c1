import Mathlib.Algebra.Group.Int.Even
import Mathlib.Algebra.Ring.Int.Parity
import Mathlib.RingTheory.Int.Basic
import ResultCache.Proofs.Fingerprint.Totals

/-! What the totals of a fingerprint tell about the order of its parts. The hash counts the weight at a place a
number of times that is odd at every other place, and an odd number can be divided off in a word. -/
namespace ResultCache.Fingerprint

/-- How many times the hash of so many parts counts the weight at a place. -/
def share (n i : Nat) : Int := 37 ^ (n - (i + 1)) * (i + 1)

theorem share_succ {n i : Nat} (h : i < n) : share (n + 1) i = 37 * share n i := by
  rw [share, share, Nat.sub_add_comm h, pow_succ']
  ring

theorem share_last (n : Nat) : share (n + 1) n = n + 1 := by
  rw [share, Nat.sub_self, pow_zero, one_mul]

theorem odd_share_iff (n i : Nat) : Odd (share n i) ↔ Even i := by
  have hpower : Odd ((37 : Int) ^ (n - (i + 1))) := Odd.pow (by decide)
  rw [share, Int.odd_mul, and_iff_right hpower, ← Int.not_even_iff_odd, Int.even_add_one, not_not,
    Int.even_coe_nat]

/-- Another weight at one place changes the sum by its share of the difference. -/
theorem hashSum_set {ws : List Int} {i : Nat} (h : i < ws.length) (w : Int) :
    hashSum (ws.set i w) = hashSum ws + share ws.length i * (w - ws[i]) := by
  induction ws using List.reverseRecOn with
  | nil => cases h
  | append_singleton ws v ih =>
    rcases Nat.lt_or_ge i ws.length with hi | hi
    · rw [List.set_append_left i w hi, hashSum_append_singleton, hashSum_append_singleton, ih hi,
        List.length_set, List.length_append, List.length_singleton, share_succ hi,
        List.getElem_append_left hi]
      ring
    · have hlast : i = ws.length := by
        rw [List.length_append, List.length_singleton] at h
        omega
      subst hlast
      rw [List.set_append_right _ w (Nat.le_refl _), Nat.sub_self, List.set_cons_zero,
        hashSum_append_singleton, hashSum_append_singleton, List.length_append, List.length_singleton,
        share_last, List.getElem_concat_length rfl]
      ring

theorem ofInt_eq_iff_dvd {a b : Int} : Int32.ofInt a = Int32.ofInt b ↔ 2 ^ 32 ∣ a - b := by
  rw [← Int32.toInt_inj, Int32.toInt_ofInt, Int32.toInt_ofInt,
    Int.bmod_eq_bmod_iff_bmod_sub_eq_zero, ← Int.dvd_iff_bmod_eq_zero]
  rfl

/-- An odd multiple of the difference of two words is cut off to nothing only if there is no difference. -/
theorem ofInt_add_odd_mul_eq_iff {k : Int} (hk : Odd k) (a : Int) (v w : Int32) :
    Int32.ofInt (a + k * (v.toInt - w.toInt)) = Int32.ofInt a ↔ v = w := by
  have hcoprime : IsCoprime ((2 : Int) ^ 32) k := (Int.isCoprime_two_left.mpr hk).pow_left
  rw [ofInt_eq_iff_dvd, add_sub_cancel_left]
  constructor
  · intro h
    have hdiff := hcoprime.dvd_of_dvd_mul_left h
    rwa [← ofInt_eq_iff_dvd, Int32.ofInt_toInt, Int32.ofInt_toInt] at hdiff
  · rintro rfl
    rw [sub_self, mul_zero]
    exact dvd_zero _

/-- Two words are too close together for their difference to be cut off to nothing in a checksum. -/
theorem ofInt_add_sub_eq_iff (a : Int) (v w : Int32) :
    Int64.ofInt (a + (v.toInt - w.toInt)) = Int64.ofInt a ↔ v = w := by
  have hsize : Int64.size = 2 ^ 64 := rfl
  have hv := And.intro v.le_toInt v.toInt_lt
  have hw := And.intro w.le_toInt w.toInt_lt
  rw [← Int64.toInt_inj, Int64.toInt_ofInt, Int64.toInt_ofInt, Int.bmod_eq_bmod_iff_bmod_sub_eq_zero,
    add_sub_cancel_left, hsize, Int.bmod_eq_of_le_mul_two (by omega) (by omega), sub_eq_zero,
    Int32.toInt_inj]

theorem weights_set (parts : List Part) (i : Nat) (p : Part) :
    weights (parts.set i p) = (weights parts).set i p.weight.toInt := List.map_set

/-- A part in the place of another one changes the hash by its share of the difference of the weights. -/
theorem hashSum_weights_set {parts : List Part} {i : Nat} (h : i < parts.length) (p : Part) :
    hashSum (weights (parts.set i p)) =
      hashSum (weights parts) + share parts.length i * (p.weight.toInt - parts[i].weight.toInt) := by
  have hi : i < (weights parts).length := by rwa [length_weights]
  have hold : (weights parts)[i] = parts[i].weight.toInt := List.getElem_map _
  rw [weights_set, hashSum_set hi, length_weights, hold]

theorem sum_weights_set {parts : List Part} {i : Nat} (h : i < parts.length) (p : Part) :
    (weights (parts.set i p)).sum = (weights parts).sum + (p.weight.toInt - parts[i].weight.toInt) := by
  have hi : i < (weights parts).length := by rwa [length_weights]
  have hold : (weights parts)[i] = parts[i].weight.toInt := List.getElem_map _
  rw [weights_set, List.sum_set', dif_pos hi, hold, neg_add_eq_sub]

/-- Two parts in each other's places change the hash by the difference of their shares, as many times as the
weights differ. -/
theorem hashSum_weights_swap {parts : List Part} {i j : Nat} (hi : i < parts.length) (hj : j < parts.length)
    (hij : i ≠ j) : hashSum (weights ((parts.set i parts[j]).set j parts[i])) =
      hashSum (weights parts) + (share parts.length i - share parts.length j) *
        (parts[j].weight.toInt - parts[i].weight.toInt) := by
  have hj' : j < (parts.set i parts[j]).length := by rwa [List.length_set]
  rw [hashSum_weights_set hj', hashSum_weights_set hi, List.length_set, List.getElem_set_ne hij]
  ring

namespace IsMadeOfParts
variable {f g : Fingerprint} {i j : Nat}

theorem checksum_swap (hf : f.IsMadeOfParts) (hg : g.IsMadeOfParts) (hi : i < f.parts.size)
    (hj : j < f.parts.size) (hparts : g.parts = f.parts.swap i j) : g.checksum = f.checksum := by
  have hperm : g.parts.toList.Perm f.parts.toList := by
    rw [hparts]
    exact (Array.swap_perm hi hj).toList
  rw [hg.checksum_eq, hf.checksum_eq]
  exact congrArg Int64.ofInt (hperm.map _).sum_eq

theorem hash_swap_eq_iff (hf : f.IsMadeOfParts) (hg : g.IsMadeOfParts) (hi : i < f.parts.size)
    (hj : j < f.parts.size) (hij : i < j) (hodd : Odd (j - i)) (hparts : g.parts = f.parts.swap i j) :
    g.hash = f.hash ↔ f.parts[i].weight = f.parts[j].weight := by
  have hlist : g.parts.toList = (f.parts.toList.set i f.parts[j]).set j f.parts[i] := by
    rw [hparts, Array.toList_swap]
  have hshares : Odd (share f.parts.toList.length i - share f.parts.toList.length j) := by
    rw [Nat.odd_sub hij.le] at hodd
    rw [Int.odd_sub, odd_share_iff, ← Int.not_odd_iff_even, odd_share_iff, Nat.not_even_iff_odd, hodd]
  rw [hg.hash_eq, hf.hash_eq, hlist]
  refine (Eq.congr_left (congrArg Int32.ofInt (hashSum_weights_swap hi hj hij.ne))).trans ?_
  rw [ofInt_add_odd_mul_eq_iff hshares]
  exact eq_comm

theorem checksum_set_eq_iff (hf : f.IsMadeOfParts) (hg : g.IsMadeOfParts) (hi : i < f.parts.size) {p : Part}
    (hparts : g.parts = f.parts.set i p) : g.checksum = f.checksum ↔ p.weight = f.parts[i].weight := by
  rw [hg.checksum_eq, hf.checksum_eq, hparts, Array.toList_set, sum_weights_set hi]
  exact ofInt_add_sub_eq_iff _ _ _

theorem hash_set_eq_iff (hf : f.IsMadeOfParts) (hg : g.IsMadeOfParts) (hi : i < f.parts.size) {p : Part}
    (hodd : Odd (i + 1)) (hparts : g.parts = f.parts.set i p) :
    g.hash = f.hash ↔ p.weight = f.parts[i].weight := by
  have hshare : Odd (share f.parts.toList.length i) := by
    rwa [odd_share_iff, ← Nat.not_odd_iff_even, ← Nat.odd_add_one]
  rw [hg.hash_eq, hf.hash_eq, hparts, Array.toList_set, hashSum_weights_set hi]
  exact ofInt_add_odd_mul_eq_iff hshare _ _ _

end IsMadeOfParts

/-- However two fingerprints came about, they have recorded the parts they were given. If two parts an odd number
of places apart have traded places, the hash is another one just if the weights of the two parts differ, and the
checksum is the same. If one part was replaced by one of another weight, the checksum is another one, and so is the
hash if the part is the first, the third and so on. -/
theorem totals_tell_order {f g : Fingerprint} (hf : f.Reached) (hg : g.Reached) :
    (∀ given, f.Given given ↔ f.parts.toList = given) ∧ (∀ given, g.Given given ↔ g.parts.toList = given) ∧
    (∀ i j, (hi : i < f.parts.size) → (hj : j < f.parts.size) → i < j → Odd (j - i) →
      g.parts = f.parts.swap i j →
        (g.hash ≠ f.hash ↔ f.parts[i].weight ≠ f.parts[j].weight) ∧ g.checksum = f.checksum) ∧
    (∀ i p, (hi : i < f.parts.size) → p.weight ≠ f.parts[i].weight → g.parts = f.parts.set i p →
      g.checksum ≠ f.checksum ∧ (Odd (i + 1) → g.hash ≠ f.hash)) := by
  refine ⟨fun given => hf.given_iff, fun given => hg.given_iff, ?_⟩
  have hf := hf.isMadeOfParts
  have hg := hg.isMadeOfParts
  constructor
  · intro i j hi hj hij hodd hparts
    exact ⟨not_congr (hf.hash_swap_eq_iff hg hi hj hij hodd hparts), hf.checksum_swap hg hi hj hparts⟩
  · intro i p hi hp hparts
    exact ⟨fun h => hp ((hf.checksum_set_eq_iff hg hi hparts).mp h),
      fun hodd h => hp ((hf.hash_set_eq_iff hg hi hodd hparts).mp h)⟩

/-- A text and a number of one weight may trade places unseen by the hash. The least weight there is shows in the
last place as well as in the first, and in the third place in place of another. -/
theorem totals_tell_order_of_least_weight :
    let f := ofParts [.null, .text "a", .int 97, .int 2147483648]
    let g := (ofParts [.null, .int 97]).attempt (·.updateAll [.text "a", .int 2147483648])
    let h := ofParts [.int 2147483648, .text "a", .int 97, .null]
    let k := ofParts [.null, .text "a", .int 2147483648, .int 2147483648]
    (g.parts = f.parts.swap 1 2 ∧ g.hash = f.hash) ∧
      (h.parts = f.parts.swap 0 3 ∧ h.hash ≠ f.hash ∧ h.checksum = f.checksum) ∧
      (k.parts = f.parts.set 2 (.int 2147483648) ∧ k.hash ≠ f.hash ∧ k.checksum ≠ f.checksum) := by
  intro f g h k
  have hf : f.Reached := .ofParts _
  have hg : g.Reached := .updateAll _ (.ofParts _)
  have hswapped : g.parts = f.parts.swap 1 2 := rfl
  have hends : h.parts = f.parts.swap 0 3 := rfl
  have hset : k.parts = f.parts.set 2 (.int 2147483648) := rfl
  have hsame := ((totals_tell_order hf hg).2.2.1 1 2 (by decide) (by decide) (by decide) (by decide) hswapped).1
  obtain ⟨hhash, hchecksum⟩ :=
    (totals_tell_order hf (.ofParts _)).2.2.1 0 3 (by decide) (by decide) (by decide) (by decide) hends
  obtain ⟨hreplaced, hodd⟩ :=
    (totals_tell_order hf (.ofParts _)).2.2.2 2 (.int 2147483648) (by decide) (by decide) hset
  exact ⟨⟨hswapped, not_not.mp fun hne => hsame.mp hne (by decide)⟩,
    ⟨hends, hhash.mpr (by decide), hchecksum⟩, hset, hodd (by decide), hreplaced⟩

end ResultCache.Fingerprint
