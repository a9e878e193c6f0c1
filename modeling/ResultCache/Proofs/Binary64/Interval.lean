import Mathlib.Algebra.Order.Field.Power
import Mathlib.Algebra.Order.Ring.Rat
import Mathlib.Tactic.FieldSimp
import Mathlib.Tactic.Positivity
import Mathlib.Tactic.Ring
import ResultCache.Binary64.Shortest

/-! The decimals that read back as a number. They lie between the two points half way to its neighbours, so no
decimal reads back as two numbers, and the shortest digits of a number are one of its own. -/
namespace ResultCache.Binary64

namespace Interval

def lower (i : Interval) : ℚ := i.low * 2 ^ i.power

def upper (i : Interval) : ℚ := i.high * 2 ^ i.power

/-- The bounds themselves belong to a closed interval alone. -/
def Contains (i : Interval) (v : ℚ) : Prop :=
  if i.closed then i.lower ≤ v ∧ v ≤ i.upper else i.lower < v ∧ v < i.upper

theorem Contains.bounds {i : Interval} {v : ℚ} (h : i.Contains v) : i.lower ≤ v ∧ v ≤ i.upper := by
  rw [Contains] at h
  split at h
  · exact h
  · exact ⟨h.1.le, h.2.le⟩

theorem Contains.of_lt {i : Interval} {v : ℚ} (hlower : i.lower < v) (hupper : v < i.upper) : i.Contains v := by
  rw [Contains]
  split
  · exact ⟨hlower.le, hupper.le⟩
  · exact ⟨hlower, hupper⟩

end Interval

private theorem zpow_mul_toNat {b : ℚ} (hb : b ≠ 0) (z : Int) : b ^ z * b ^ (-z).toNat = b ^ z.toNat := by
  rw [← zpow_natCast, ← zpow_natCast, ← zpow_add₀ hb]
  congr 1
  omega

section
variable {tie : Tie} {i : Interval} {place : Int} {n : Nat}

private def scaleOf (i : Interval) (place : Int) : Nat := Nat.pow 2 i.power.toNat * Nat.pow 10 (-place).toNat

private def unitOf (i : Interval) (place : Int) : Nat := Nat.pow 10 place.toNat * Nat.pow 2 (-i.power).toNat

private theorem contains_iff : i.Contains (n * 10 ^ place) ↔
    if i.closed then i.low * scaleOf i place ≤ n * unitOf i place ∧ n * unitOf i place ≤ i.high * scaleOf i place
    else i.low * scaleOf i place < n * unitOf i place ∧ n * unitOf i place < i.high * scaleOf i place := by
  have hmeasure : (0 : ℚ) < 10 ^ (-place).toNat * 2 ^ (-i.power).toNat := by positivity
  -- multiplied by the measure, the point and the bounds are the whole numbers that are compared
  have htwo := zpow_mul_toNat (b := 2) (by norm_num) i.power
  have hten := zpow_mul_toNat (b := 10) (by norm_num) place
  have hpoint : (n : ℚ) * 10 ^ place * (10 ^ (-place).toNat * 2 ^ (-i.power).toNat) =
      (n * unitOf i place : Nat) := by
    rw [unitOf]
    push_cast [Nat.pow_eq]
    rw [← hten]
    ring
  have hbound (a : Nat) : (a : ℚ) * 2 ^ i.power * (10 ^ (-place).toNat * 2 ^ (-i.power).toNat) =
      (a * scaleOf i place : Nat) := by
    rw [scaleOf]
    push_cast [Nat.pow_eq]
    rw [← htwo]
    ring
  have hle (a : Nat) : (a : ℚ) * 2 ^ i.power ≤ n * 10 ^ place ↔ a * scaleOf i place ≤ n * unitOf i place := by
    rw [← mul_le_mul_iff_of_pos_right hmeasure, hbound, hpoint, Nat.cast_le]
  have hge (a : Nat) : (n : ℚ) * 10 ^ place ≤ a * 2 ^ i.power ↔ n * unitOf i place ≤ a * scaleOf i place := by
    rw [← mul_le_mul_iff_of_pos_right hmeasure, hbound, hpoint, Nat.cast_le]
  rw [Interval.Contains, Interval.lower, Interval.upper, hle, hge, ← not_le, hge, ← not_le, hle, not_le, not_le]

private theorem onGrid?_cases (h : i.onGrid? tie place = some n) :
    let below := i.value * scaleOf i place / unitOf i place
    (n = below ∧ if i.closed then i.low * scaleOf i place ≤ below * unitOf i place
      else i.low * scaleOf i place < below * unitOf i place) ∨
    (n = below + 1 ∧ if i.closed then (below + 1) * unitOf i place ≤ i.high * scaleOf i place
      else (below + 1) * unitOf i place < i.high * scaleOf i place) := by
  unfold Interval.onGrid? at h
  dsimp only at h ⊢
  -- Closed and open intervals differ in the comparisons alone.
  cases hclosed : i.closed
  all_goals
    simp only [hclosed, if_true, if_false, Bool.false_eq_true] at h ⊢
    split at h
    · next hboth =>
      obtain rfl := Option.some.inj h
      split
      · exact .inr ⟨rfl, hboth.2⟩
      · exact .inl ⟨rfl, hboth.1⟩
    · split at h
      · next hbelow => exact .inl ⟨(Option.some.inj h).symm, hbelow⟩
      · split at h
        · next habove => exact .inr ⟨(Option.some.inj h).symm, habove⟩
        · cases h

/-- Whatever point of the grid is taken lies in the interval. -/
theorem Interval.onGrid?_contains (hlow : i.low ≤ i.value) (hhigh : i.value < i.high)
    (h : i.onGrid? tie place = some n) : i.Contains (n * 10 ^ place) := by
  have hscale : 0 < scaleOf i place := Nat.mul_pos (Nat.pow_pos (by decide)) (Nat.pow_pos (by decide))
  have hunit : 0 < unitOf i place := Nat.mul_pos (Nat.pow_pos (by decide)) (Nat.pow_pos (by decide))
  have hbelow := Nat.div_mul_le_self (i.value * scaleOf i place) (unitOf i place)
  have habove := Nat.lt_mul_of_div_lt (Nat.lt_add_one (i.value * scaleOf i place / unitOf i place)) hunit
  have hlow' : i.low * scaleOf i place ≤ i.value * scaleOf i place := Nat.mul_le_mul_right _ hlow
  have hhigh' : i.value * scaleOf i place < i.high * scaleOf i place := Nat.mul_lt_mul_of_pos_right hhigh hscale
  rw [contains_iff]
  rcases onGrid?_cases h with ⟨rfl, hfits⟩ | ⟨rfl, hfits⟩
  · split at hfits
    · next hclosed =>
      rw [if_pos hclosed]
      exact ⟨hfits, by omega⟩
    · next hopen =>
      rw [if_neg hopen]
      exact ⟨hfits, by omega⟩
  · split at hfits
    · next hclosed =>
      rw [if_pos hclosed]
      exact ⟨by omega, hfits⟩
    · next hopen =>
      rw [if_neg hopen]
      exact ⟨by omega, hfits⟩

end

/-- A positive number is not the least of the decimals that read back as it. -/
theorem interval_bounds {mantissa : Nat} (h : 0 < mantissa) (exponent : Int) :
    0 < (interval mantissa exponent).low ∧
      (interval mantissa exponent).low < (interval mantissa exponent).value ∧
      (interval mantissa exponent).value < (interval mantissa exponent).high := by
  simp only [interval]
  split <;> omega

/-- A positive number lies within its own interval. -/
theorem interval_contains_self {mantissa : Nat} (h : 0 < mantissa) (exponent : Int) :
    (interval mantissa exponent).Contains (mantissa * 2 ^ exponent) := by
  obtain ⟨-, hlow, hhigh⟩ := interval_bounds h exponent
  have hquarters : (mantissa : ℚ) * 2 ^ exponent =
      (interval mantissa exponent).value * 2 ^ (interval mantissa exponent).power := by
    have hpower : exponent = 2 + (interval mantissa exponent).power := by
      simp only [interval]
      omega
    conv_lhs => rw [hpower, zpow_add₀ (by norm_num)]
    simp only [interval]
    push_cast
    ring
  have hpos : (0 : ℚ) < 2 ^ (interval mantissa exponent).power := by positivity
  rw [hquarters]
  exact .of_lt (mul_lt_mul_of_pos_right (Nat.cast_lt.mpr hlow) hpos)
    (mul_lt_mul_of_pos_right (Nat.cast_lt.mpr hhigh) hpos)

/-- Zero is the lower bound of its own. -/
theorem interval_zero_contains (exponent : Int) : (interval 0 exponent).Contains 0 := by
  have hupper : (0 : ℚ) ≤ (interval 0 exponent).upper := by
    rw [Interval.upper]
    positivity
  have hlower : (interval 0 exponent).lower ≤ 0 := by
    rw [Interval.lower]
    simp only [interval, Nat.mul_zero, Nat.zero_sub, Nat.cast_zero, zero_mul, le_refl]
  rw [Interval.Contains]
  exact ⟨hlower, hupper⟩

private theorem exact_value (mantissa : Nat) (exponent : Int) :
    ((mantissa * Nat.pow 2 exponent.toNat * Nat.pow 5 (-exponent).toNat : Nat) : ℚ) *
      10 ^ (if exponent < 0 then exponent else 0) = mantissa * 2 ^ exponent := by
  push_cast [Nat.pow_eq]
  split
  · next hneg =>
    obtain ⟨k, rfl⟩ : ∃ k : Nat, exponent = -k := ⟨(-exponent).toNat, by omega⟩
    have hten : (10 : ℚ) ^ k = 2 ^ k * 5 ^ k := by rw [← mul_pow]; norm_num
    rw [neg_neg, Int.toNat_natCast, Int.toNat_neg_natCast, zpow_neg, zpow_neg, zpow_natCast, zpow_natCast, hten]
    field_simp
  · next hpos =>
    obtain ⟨k, rfl⟩ := Int.eq_ofNat_of_zero_le (Int.not_lt.mp hpos)
    rw [Int.toNat_natCast, Int.toNat_neg_natCast, zpow_natCast, zpow_zero, pow_zero, mul_one, mul_one]

/-- Any decimal on a grid, without the zeros at its end. The shortest one is of this form, whichever grid it
was found on, and lies in the interval. -/
theorem exists_shortest_eq (tie : Tie) {mantissa : Nat} (h : 0 < mantissa) (exponent : Int) :
    ∃ n place, 0 < n ∧ shortest tie mantissa exponent = Decimal.ofNat n place ∧
      (interval mantissa exponent).Contains (n * 10 ^ place) := by
  obtain ⟨hlow, hvalue, hhigh⟩ := interval_bounds h exponent
  suffices hfound : ∃ n place, shortest tie mantissa exponent = Decimal.ofNat n place ∧
      (interval mantissa exponent).Contains (n * 10 ^ place) by
    obtain ⟨n, place, heq, hcontains⟩ := hfound
    refine ⟨n, place, Nat.pos_of_ne_zero ?_, heq, hcontains⟩
    rintro rfl
    have hlower := hcontains.bounds.1
    rw [Nat.cast_zero, zero_mul, Interval.lower] at hlower
    have : (0 : ℚ) < (interval mantissa exponent).low * 2 ^ (interval mantissa exponent).power := by
      positivity
    exact absurd hlower (not_le.mpr this)
  rw [shortest]
  dsimp only
  cases hsearch : (List.range 17).findSome? fun (n : Nat) =>
      ((interval mantissa exponent).onGrid? tie (pointOf mantissa exponent - 1 - n)).map
        (Decimal.ofNat · (pointOf mantissa exponent - 1 - n)) with
  | some d =>
    obtain ⟨steps, -, hsteps⟩ := List.exists_of_findSome?_eq_some hsearch
    obtain ⟨n, hn, rfl⟩ := Option.map_eq_some_iff.mp hsteps
    exact ⟨n, _, rfl, Interval.onGrid?_contains hvalue.le hhigh hn⟩
  | none =>
    refine ⟨_, _, rfl, ?_⟩
    rw [exact_value]
    exact interval_contains_self h exponent

/-- Below the normal range all numbers share the least exponent. -/
theorem scientific_of_lt {magnitude : Nat} (h : magnitude < binade) :
    scientific magnitude = (magnitude, leastExponent) := by
  simp only [scientific, Nat.mod_eq_of_lt h, Nat.div_eq_of_lt h]

theorem scientific_of_div {magnitude n : Nat} (h : magnitude / binade = n + 1) :
    scientific magnitude = (binade + magnitude % binade, leastExponent + n) := by
  unfold scientific
  dsimp only
  rw [h]

theorem scientific_of_binade (n : Nat) {fraction : Nat} (h : fraction < binade) :
    scientific ((n + 1) * binade + fraction) = (binade + fraction, leastExponent + n) := by
  have hdiv : ((n + 1) * binade + fraction) / binade = n + 1 := by
    rw [Nat.add_comm, Nat.add_mul_div_right _ _ (by decide), Nat.div_eq_of_lt h, Nat.zero_add]
  rw [scientific_of_div hdiv, Nat.add_comm ((n + 1) * binade), Nat.add_mul_mod_self_right, Nat.mod_eq_of_lt h]

/-- A magnitude is below the normal range or in one of its binades. -/
theorem magnitude_cases (magnitude : Nat) : magnitude < binade ∨
    ∃ n fraction, fraction < binade ∧ magnitude = (n + 1) * binade + fraction := by
  cases hdiv : magnitude / binade with
  | zero => exact .inl ((Nat.div_eq_zero_iff_lt (by decide)).mp hdiv)
  | succ n =>
    refine .inr ⟨n, magnitude % binade, Nat.mod_lt _ (by decide), ?_⟩
    rw [← hdiv, Nat.mul_comm, Nat.div_add_mod]

theorem upper_interval (mantissa : Nat) (exponent : Int) :
    (interval mantissa exponent).upper = (4 * mantissa + 2) * 2 ^ (exponent - 2) := by
  simp only [Interval.upper, interval]
  push_cast
  rfl

/-- The gap below a number is as wide as the one above it, but for the first number of a binade. -/
theorem lower_interval {mantissa : Nat} {exponent : Int} (hpos : 0 < mantissa)
    (h : mantissa ≠ binade ∨ exponent = leastExponent) :
    (interval mantissa exponent).lower = (4 * mantissa - 2) * 2 ^ (exponent - 2) := by
  have hgap : ¬ (mantissa = binade ∧ leastExponent < exponent) := by
    rintro ⟨hfirst, hlater⟩
    exact h.elim (absurd hfirst) fun hleast => absurd hleast hlater.ne'
  have hle : 2 ≤ 4 * mantissa := by omega
  simp only [Interval.lower, interval, if_neg hgap]
  push_cast [hle]
  rfl

theorem lower_binade {exponent : Int} (h : leastExponent < exponent) :
    (interval binade exponent).lower = (4 * (binade : Nat) - 1) * 2 ^ (exponent - 2) := by
  have hle : 1 ≤ 4 * binade := by decide
  simp only [Interval.lower, interval, true_and, if_pos h]
  push_cast [hle]
  rfl

/-- The decimals that read back as a finite number, without its sign. -/
def reach (magnitude : Nat) : Interval := interval (scientific magnitude).1 (scientific magnitude).2

theorem reach_of_lt {magnitude : Nat} (h : magnitude < binade) :
    reach magnitude = interval magnitude leastExponent := by
  rw [reach, scientific_of_lt h]

theorem reach_of_binade (n : Nat) {fraction : Nat} (h : fraction < binade) :
    reach ((n + 1) * binade + fraction) = interval (binade + fraction) (leastExponent + n) := by
  rw [reach, scientific_of_binade n h]

/-- Numbers follow each other without a gap between the decimals that read back as them. -/
theorem upper_reach (magnitude : Nat) : (reach magnitude).upper = (reach (magnitude + 1)).lower := by
  rcases magnitude_cases magnitude with h | ⟨n, fraction, hfraction, rfl⟩
  · rw [reach_of_lt h, upper_interval]
    rcases (show magnitude + 1 ≤ binade from h).lt_or_eq with hnext | hnext
    · rw [reach_of_lt hnext, lower_interval (Nat.succ_pos _) (.inl hnext.ne)]
      push_cast
      ring
    · have hfirst : magnitude + 1 = (0 + 1) * binade + 0 := by
        rw [Nat.zero_add, Nat.one_mul, Nat.add_zero, ← hnext]
      rw [hfirst, reach_of_binade 0 (by decide), Nat.add_zero, ← hnext, Nat.cast_zero, add_zero,
        lower_interval (Nat.succ_pos _) (.inr rfl)]
      push_cast
      ring
  · rw [reach_of_binade n hfraction, upper_interval]
    rcases (show fraction + 1 ≤ binade from hfraction).lt_or_eq with hnext | hnext
    · have hmantissa : binade + (fraction + 1) ≠ binade := Nat.ne_of_gt (Nat.lt_add_of_pos_right (Nat.succ_pos _))
      rw [Nat.add_assoc, reach_of_binade n hnext,
        lower_interval (Nat.add_pos_right _ (Nat.succ_pos _)) (.inl hmantissa)]
      push_cast
      ring
    · have hfirst : (n + 1) * binade + fraction + 1 = (n + 1 + 1) * binade + 0 := by
        rw [Nat.add_assoc, hnext, Nat.add_one_mul (n + 1), Nat.add_assoc _ binade, Nat.add_zero]
      have hexponent : leastExponent < leastExponent + (n + 1 : Nat) := by omega
      have htwice : (2 : ℚ) ^ (leastExponent + (n + 1 : Nat) - 2) = 2 ^ (leastExponent + n - 2) * 2 := by
        rw [← zpow_add_one₀ (by norm_num)]
        push_cast
        congr 1
        ring
      rw [hfirst, reach_of_binade (n + 1) (by decide), Nat.add_zero, lower_binade hexponent, htwice, ← hnext]
      push_cast
      ring

theorem lower_lt_upper (magnitude : Nat) : (reach magnitude).lower < (reach magnitude).upper := by
  have hpos : (0 : ℚ) < 2 ^ (reach magnitude).power := by positivity
  refine mul_lt_mul_of_pos_right (Nat.cast_lt.mpr ?_) hpos
  exact Nat.lt_of_le_of_lt (Nat.sub_le _ _) (Nat.lt_add_of_pos_right (by decide))

/-- The last bit of the mantissa is that of the magnitude. -/
theorem closed_reach (magnitude : Nat) : (reach magnitude).closed = decide (magnitude % 2 = 0) := by
  have heven : binade % 2 = 0 := by decide
  rcases magnitude_cases magnitude with h | ⟨n, fraction, hfraction, rfl⟩
  · rw [reach_of_lt h]
    rfl
  · rw [reach_of_binade n hfraction, Nat.add_mod, Nat.mul_mod, heven, Nat.mul_zero, Nat.zero_mod, Nat.zero_add,
      Nat.mod_mod]
    simp only [interval]
    rw [Nat.add_mod, heven, Nat.zero_add, Nat.mod_mod]

theorem upper_le_lower {a b : Nat} (h : a < b) : (reach a).upper ≤ (reach b).lower := by
  induction b, h using Nat.le_induction with
  | base => exact (upper_reach a).le
  | succ b _ ih => exact ih.trans ((lower_lt_upper b).le.trans (upper_reach b).le)

/-- Only an even number reads back from its own bounds. -/
theorem even_of_contains_upper {magnitude : Nat} (h : (reach magnitude).Contains (reach magnitude).upper) :
    magnitude % 2 = 0 := by
  by_contra hodd
  rw [Interval.Contains, closed_reach, decide_eq_false hodd, if_neg Bool.false_ne_true] at h
  exact lt_irrefl _ h.2

theorem even_of_contains_lower {magnitude : Nat} (h : (reach magnitude).Contains (reach magnitude).lower) :
    magnitude % 2 = 0 := by
  by_contra hodd
  rw [Interval.Contains, closed_reach, decide_eq_false hodd, if_neg Bool.false_ne_true] at h
  exact lt_irrefl _ h.1

/-- Only neighbours share a bound. -/
theorem eq_succ_of_upper {a b : Nat} (h : a < b) (hmeet : (reach a).upper = (reach b).lower) : b = a + 1 := by
  refine Nat.le_antisymm (not_lt.mp fun hfar => ?_) h
  have hbeyond := upper_le_lower hfar
  rw [← hmeet, upper_reach a] at hbeyond
  exact not_le.mpr (lower_lt_upper (a + 1)) hbeyond

/-- Numbers with a decimal in common would be neighbours that share a bound, but one of those is odd. -/
theorem not_contains_of_lt {a b : Nat} {v : ℚ} (h : a < b) (ha : (reach a).Contains v) : ¬ (reach b).Contains v := by
  intro hb
  have hmeet := upper_le_lower h
  obtain rfl : v = (reach a).upper := le_antisymm ha.bounds.2 (hmeet.trans hb.bounds.1)
  have hshared : (reach a).upper = (reach b).lower := le_antisymm hmeet hb.bounds.1
  obtain rfl := eq_succ_of_upper h hshared
  have heven := even_of_contains_upper ha
  rw [hshared] at hb
  have hodd := even_of_contains_lower hb
  omega

/-- No decimal reads back as two numbers. -/
theorem reach_unique {a b : Nat} {v : ℚ} (ha : (reach a).Contains v) (hb : (reach b).Contains v) : a = b := by
  rcases Nat.lt_trichotomy a b with h | h | h
  · exact (not_contains_of_lt h ha hb).elim
  · exact h
  · exact (not_contains_of_lt h hb ha).elim

end ResultCache.Binary64
