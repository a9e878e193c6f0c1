import Mathlib.Data.List.DropRight
import ResultCache.Proofs.Binary64.Interval
import ResultCache.Proofs.Json.Legible

/-! The texts of numbers in JSON. The one of a finite number is a numeral whose value reads back as the number, so
no two of them have one text; what JSON has no number for is written as one word. -/
namespace ResultCache

def Json.Literal.magnitude (l : Literal) : ℚ :=
  ((l.whole ++ l.fraction.getD []).foldl (fun n digit => 10 * n + digit) 0 : Nat) *
    10 ^ (l.exponent.getD 0 - (l.fraction.getD []).length)

theorem Json.Numeral.magnitude_literal (n : Numeral) : n.literal.magnitude =
    (Nat.ofDigitChars 10 (n.whole ++ n.fraction.getD []) 0 : Nat) *
      10 ^ (n.exponent.getD 0 - (n.fraction.getD []).length) := by
  have hfraction : n.literal.fraction.getD [] = (n.fraction.getD []).map digitValue := by
    rw [literal]
    cases n.fraction <;> rfl
  rw [Literal.magnitude, hfraction, List.length_map, ← foldl_digitValue, List.map_append]
  rfl

namespace Binary64

namespace Decimal

def value (d : Decimal) : ℚ := (Nat.ofDigitChars 10 d.digits 0 : Nat) * 10 ^ (d.point - d.digits.length)

/-- Digits alone, with a zero in front in the decimal for zero only. -/
structure Standard (d : Decimal) : Prop where
  isDigits : Json.IsDigits d.digits
  head : d.digits.head? = some '0' → d.digits.length = 1 ∧ d.point = 1

private theorem isDigits_zero : Json.IsDigits ['0'] := ⟨nofun, List.forall_mem_singleton.mpr rfl⟩

theorem standard_zero : Standard ⟨['0'], 1⟩ := ⟨isDigits_zero, fun _ => ⟨rfl, rfl⟩⟩

theorem value_zero : value ⟨['0'], 1⟩ = 0 := by
  have hdigits : Nat.ofDigitChars 10 ['0'] 0 = 0 := rfl
  rw [value, hdigits, Nat.cast_zero, zero_mul]

/-- The zeros at the end are all that a decimal leaves out. -/
theorem toDigits_eq_digits_append (n : Nat) (place : Int) :
    ∃ k, Nat.toDigits 10 n = (ofNat n place).digits ++ List.replicate k '0' := by
  have hzeros : ∀ c ∈ (Nat.toDigits 10 n).rtakeWhile (· == '0'), c = '0' :=
    fun c hc => by simpa using List.mem_rtakeWhile_imp hc
  refine ⟨((Nat.toDigits 10 n).rtakeWhile (· == '0')).length, ?_⟩
  rw [← List.eq_replicate_iff.mpr ⟨rfl, hzeros⟩]
  exact List.rdropWhile_append_rtakeWhile.symm

theorem standard_ofNat {n : Nat} (h : 0 < n) (place : Int) : (ofNat n place).Standard := by
  obtain ⟨k, hdigits⟩ := toDigits_eq_digits_append n place
  have hhead (hzero : (Nat.toDigits 10 n).head? = some '0') : False := by
    rw [Json.toDigits_head n hzero] at h
    exact Nat.lt_irrefl 0 h
  have hne : (ofNat n place).digits ≠ [] := by
    intro hnil
    rw [hnil, List.nil_append] at hdigits
    cases k with
    | zero => exact Nat.toDigits_ne_nil hdigits
    | succ k => exact hhead (congrArg List.head? hdigits)
  refine ⟨⟨hne, fun c hc => ?_⟩, fun hzero => (hhead ?_).elim⟩
  · exact (Json.isDigits_toDigits n).2 c (hdigits ▸ List.mem_append_left _ hc)
  · rw [hdigits, List.head?_append, hzero, Option.some_or]

/-- Leaving out zeros at the end does not change the value, as the point stays. -/
theorem value_ofNat (n : Nat) (place : Int) : (ofNat n place).value = n * 10 ^ place := by
  obtain ⟨k, hdigits⟩ := toDigits_eq_digits_append n place
  have hvalue : n = 10 ^ k * Nat.ofDigitChars 10 (ofNat n place).digits 0 := by
    rw [← Nat.ofDigitChars_replicate_zero, ← Nat.ofDigitChars_append, ← hdigits, Nat.ofDigitChars_ten_toDigits]
  have hpoint : (ofNat n place).point - ((ofNat n place).digits.length : Int) = k + place := by
    have hlength := congrArg List.length hdigits
    rw [List.length_append, List.length_replicate] at hlength
    change ((Nat.toDigits 10 n).length : Int) + place - _ = _
    omega
  rw [value, hpoint, zpow_add₀ (by norm_num), zpow_natCast]
  conv_rhs => rw [hvalue]
  push_cast
  ring

variable {d : Decimal}

/-- The text is a numeral without a sign that has the value of the decimal. -/
def WrittenAs (d : Decimal) (text : List Char) : Prop :=
  ∃ n : Json.Numeral, n.negative = false ∧ n.text = text ∧ n.literal.magnitude = d.value

private theorem magnitude_eq_value {n : Json.Numeral}
    (hdigits : Nat.ofDigitChars 10 (n.whole ++ n.fraction.getD []) 0 = Nat.ofDigitChars 10 d.digits 0)
    (hpoint : n.exponent.getD 0 - (n.fraction.getD []).length = d.point - d.digits.length) :
    n.literal.magnitude = d.value := by
  rw [Json.Numeral.magnitude_literal, value, hdigits, hpoint]

private theorem written_below_one (h : d.Standard) (hpoint : d.point ≤ 0) :
    d.WrittenAs ('0' :: '.' :: List.replicate (-d.point).toNat '0' ++ d.digits) := by
  obtain ⟨hne, hds⟩ := h.isDigits
  have hzeros : ∀ c ∈ List.replicate (-d.point).toNat '0', c.isDigit = true :=
    fun c hc => List.eq_of_mem_replicate hc ▸ rfl
  refine ⟨{
    negative := false
    whole := ['0']
    fraction := some (List.replicate (-d.point).toNat '0' ++ d.digits)
    whole_isDigits := isDigits_zero
    whole_head := fun _ => rfl
    fraction_isDigits := ?_ }, rfl, ?_, ?_⟩
  · rintro _ ⟨rfl⟩
    exact ⟨List.append_ne_nil_of_right_ne_nil _ hne, List.forall_mem_append.mpr ⟨hzeros, hds⟩⟩
  · simp only [Json.Numeral.text, Option.elim, List.append_nil, List.cons_append, List.nil_append,
      if_neg Bool.false_ne_true]
  · refine magnitude_eq_value ?_ ?_
    · change Nat.ofDigitChars 10 (['0'] ++ (List.replicate (-d.point).toNat '0' ++ d.digits)) 0 = _
      rw [Nat.ofDigitChars_append, Nat.ofDigitChars_append, Nat.ofDigitChars_replicate_zero]
      rfl
    · change 0 - ((List.replicate (-d.point).toNat '0' ++ d.digits).length : Int) = _
      rw [List.length_append, List.length_replicate]
      omega

private theorem written_whole (h : d.Standard) (hpoint : d.digits.length ≤ d.point.toNat) :
    d.WrittenAs (d.digits ++ List.replicate (d.point.toNat - d.digits.length) '0' ++ ['.', '0']) := by
  obtain ⟨hne, hds⟩ := h.isDigits
  have hzeros : ∀ c ∈ List.replicate (d.point.toNat - d.digits.length) '0', c.isDigit = true :=
    fun c hc => List.eq_of_mem_replicate hc ▸ rfl
  refine ⟨{
    negative := false
    whole := d.digits ++ List.replicate (d.point.toNat - d.digits.length) '0'
    fraction := some ['0']
    whole_isDigits := ⟨List.append_ne_nil_of_left_ne_nil hne _, List.forall_mem_append.mpr ⟨hds, hzeros⟩⟩
    whole_head := fun hhead => ?_
    fraction_isDigits := ?_ }, rfl, ?_, ?_⟩
  · rw [List.head?_append_of_ne_nil _ hne] at hhead
    obtain ⟨hlength, hone⟩ := h.head hhead
    rw [List.length_append, List.length_replicate, hlength, hone]
    rfl
  · rintro _ ⟨rfl⟩
    exact isDigits_zero
  · simp only [Json.Numeral.text, Option.elim, List.append_nil, List.nil_append, if_neg Bool.false_ne_true]
  · have hpos := List.length_pos_of_ne_nil hne
    have hexponent : d.point - (d.digits.length : Int) = (d.point.toNat - d.digits.length : Nat) := by omega
    rw [Json.Numeral.magnitude_literal, value, hexponent, zpow_natCast]
    change (Nat.ofDigitChars 10 (d.digits ++ List.replicate _ '0' ++ ['0']) 0 : Nat) * (10 : ℚ) ^ (-1 : Int) = _
    rw [Nat.ofDigitChars_append, Nat.ofDigitChars_append, Nat.ofDigitChars_replicate_zero]
    change ((10 * (10 ^ _ * _) : Nat) : ℚ) * _ = _
    push_cast
    rw [zpow_neg_one]
    ring

private theorem written_mixed (h : d.Standard) (hpoint : 0 < d.point) (hlength : d.point.toNat < d.digits.length) :
    d.WrittenAs (d.digits.take d.point.toNat ++ '.' :: d.digits.drop d.point.toNat) := by
  obtain ⟨hne, hds⟩ := h.isDigits
  have hbefore : d.point.toNat ≠ 0 := by omega
  refine ⟨{
    negative := false
    whole := d.digits.take d.point.toNat
    fraction := some (d.digits.drop d.point.toNat)
    whole_isDigits := ⟨?_, fun c hc => hds c (List.mem_of_mem_take hc)⟩
    whole_head := fun hhead => ?_
    fraction_isDigits := ?_ }, rfl, ?_, ?_⟩
  · rw [Ne, List.take_eq_nil_iff]
    exact not_or.mpr ⟨hbefore, hne⟩
  · rw [List.head?_take, if_neg hbefore] at hhead
    have := (h.head hhead).1
    omega
  · rintro _ ⟨rfl⟩
    exact ⟨List.ne_nil_of_length_pos (by rw [List.length_drop]; omega), fun c hc => hds c (List.mem_of_mem_drop hc)⟩
  · simp only [Json.Numeral.text, Option.elim, List.append_nil, List.nil_append, if_neg Bool.false_ne_true]
  · refine magnitude_eq_value (congrArg (Nat.ofDigitChars 10 · 0) (List.take_append_drop _ _)) ?_
    change 0 - ((d.digits.drop d.point.toNat).length : Int) = _
    rw [List.length_drop]
    omega

private theorem written_positional (h : d.Standard) : d.WrittenAs (d.positional jsonStyle.wholeMark) := by
  rw [positional]
  split
  · next hpoint => exact written_below_one h hpoint
  · next hpoint =>
    dsimp only
    split
    · next hlength => exact written_whole h hlength
    · next hlength => exact written_mixed h (Int.not_le.mp hpoint) (Nat.not_le.mp hlength)

private theorem written_scientific (h : d.Standard) : d.WrittenAs d.scientific := by
  obtain ⟨hne, hds⟩ := h.isDigits
  obtain ⟨digit, digits, hdigits⟩ := List.exists_cons_of_ne_nil hne
  have hscientific : d.scientific = digit :: ((if digits.isEmpty then [] else '.' :: digits) ++
      'e' :: signedText (d.point - 1)) := by
    rw [scientific, hdigits]
    rfl
  rw [hdigits] at hds
  refine ⟨{
    negative := false
    whole := [digit]
    fraction := if digits.isEmpty then none else some digits
    exponent := some (d.point - 1)
    whole_isDigits := ⟨nofun, List.forall_mem_singleton.mpr (hds digit List.mem_cons_self)⟩
    whole_head := fun _ => rfl
    fraction_isDigits := ?_ }, rfl, ?_, ?_⟩
  · intro ds hfraction
    split at hfraction
    · cases hfraction
    · next hsome =>
      obtain rfl := Option.some.inj hfraction
      exact ⟨fun hnil => hsome (hnil ▸ rfl), fun c hc => hds c (List.mem_cons_of_mem _ hc)⟩
  · rw [hscientific]
    cases digits <;> rfl
  · have hfraction : (if digits.isEmpty then none else some digits).getD [] = digits := by
      cases digits <;> rfl
    refine magnitude_eq_value ?_ ?_
    · rw [hdigits]
      exact congrArg (fun ds => Nat.ofDigitChars 10 (digit :: ds) 0) hfraction
    · dsimp only
      rw [hfraction, hdigits, List.length_cons]
      change d.point - 1 - (digits.length : Int) = _
      omega

/-- Whatever its form, a decimal is written as a numeral of the same value. -/
theorem exists_numeral (negative : Bool) (h : d.Standard) : ∃ n : Json.Numeral, n.negative = negative ∧
    n.text = (if negative then ['-'] else []) ++ d.text jsonStyle ∧ n.literal.magnitude = d.value := by
  have hwritten : d.WrittenAs (d.text jsonStyle) := by
    rw [Decimal.text]
    split
    · exact written_positional h
    · exact written_scientific h
  obtain ⟨n, hpositive, htext, hvalue⟩ := hwritten
  refine ⟨{ n with negative }, rfl, ?_, hvalue⟩
  rw [← htext, Json.Numeral.text, Json.Numeral.text, hpositive]
  rfl

end Decimal

/-- What JSON has no number for is written alike. -/
theorem text_of_not_finite {x : Binary64} (h : x.isFinite = false) : x.text jsonStyle = ['n', 'u', 'l', 'l'] := by
  have hle := Nat.not_lt.mp (of_decide_eq_false h)
  have hshape : x.shape = .nan ∨ x.shape = .infinite x.negative := by
    rw [shape]
    rcases hle.lt_or_eq with hnan | hinfinite
    · exact .inl (if_pos hnan)
    · rw [if_neg (Nat.not_lt.mpr hinfinite.ge), if_pos hinfinite.symm]
      exact .inr rfl
  rw [text]
  rcases hshape with hshape | hshape
  · rw [hshape]
    rfl
  · rw [hshape]
    rfl

theorem shape_of_finite {x : Binary64} (h : x.isFinite = true) : x.shape =
    .finite x.negative (scientific x.magnitude).1 (scientific x.magnitude).2 := by
  have hlt := of_decide_eq_true h
  rw [shape, if_neg (Nat.not_lt.mpr hlt.le), if_neg hlt.ne]

private theorem decimal_of_finite (magnitude : Nat) :
    let mantissa := (scientific magnitude).1
    let d := if mantissa = 0 then ⟨['0'], 1⟩ else shortest .even mantissa (scientific magnitude).2
    d.Standard ∧ (reach magnitude).Contains d.value := by
  intro mantissa d
  rcases Nat.eq_zero_or_pos mantissa with hzero | hpos
  · have hd : d = ⟨['0'], 1⟩ := if_pos hzero
    rw [hd, Decimal.value_zero]
    refine ⟨Decimal.standard_zero, ?_⟩
    change (interval mantissa _).Contains 0
    rw [hzero]
    exact interval_zero_contains _
  · obtain ⟨n, place, hn, hshortest, hcontains⟩ := exists_shortest_eq .even hpos (scientific magnitude).2
    have hd : d = Decimal.ofNat n place := (if_neg hpos.ne').trans hshortest
    rw [hd, Decimal.value_ofNat]
    exact ⟨Decimal.standard_ofNat hn place, hcontains⟩

/-- A finite number is written as a numeral that reads back as the number. -/
theorem exists_numeral {x : Binary64} (h : x.isFinite = true) : ∃ n : Json.Numeral, n.text = x.text jsonStyle ∧
    n.negative = x.negative ∧ (reach x.magnitude).Contains n.literal.magnitude := by
  obtain ⟨hstandard, hcontains⟩ := decimal_of_finite x.magnitude
  obtain ⟨n, hnegative, htext, hvalue⟩ := Decimal.exists_numeral x.negative hstandard
  refine ⟨n, ?_, hnegative, hvalue ▸ hcontains⟩
  rw [htext, text, shape_of_finite h]
  rfl

/-- Finite numbers are the same if their texts are, in front of whatever may follow. -/
theorem eq_of_text {x y : Binary64} (hx : x.isFinite = true) (hy : y.isFinite = true) {rest rest' : List Char}
    (hrest : Json.Delimited rest) (hrest' : Json.Delimited rest')
    (h : x.text jsonStyle ++ rest = y.text jsonStyle ++ rest') : x = y ∧ rest = rest' := by
  obtain ⟨m, hm, hxnegative, hxcontains⟩ := exists_numeral hx
  obtain ⟨n, hn, hynegative, hycontains⟩ := exists_numeral hy
  have hread := Json.Reader.literal_yields m .truncated hrest
  have hread' := Json.Reader.literal_yields n .truncated hrest'
  rw [hn, ← h, ← hm] at hread'
  obtain ⟨hliteral, hrests⟩ := hread.unique hread'
  have hnegative : x.negative = y.negative := by
    rw [← hxnegative, ← hynegative]
    exact congrArg Json.Literal.negative hliteral
  rw [hliteral] at hxcontains
  have hmagnitude := reach_unique hxcontains hycontains
  refine ⟨?_, hrests⟩
  rw [← ofMagnitude_negative_magnitude x, hnegative, hmagnitude, ofMagnitude_negative_magnitude]

/-- The number itself, or infinity for all that JSON has no number for. -/
def blurred (x : Binary64) : Binary64 := if x.isFinite then x else ofMagnitude false infiniteMagnitude

theorem blurred_of_finite {x : Binary64} (h : x.isFinite = true) : x.blurred = x := if_pos h

theorem blurred_of_not_finite {x : Binary64} (h : x.isFinite = false) :
    x.blurred = ofMagnitude false infiniteMagnitude := if_neg (Bool.eq_false_iff.mp h)

theorem isFinite_blurred (x : Binary64) : x.blurred.isFinite = x.isFinite := by
  cases h : x.isFinite with
  | true => rw [blurred_of_finite h, h]
  | false =>
    rw [blurred_of_not_finite h]
    decide

theorem text_blurred (x : Binary64) : x.blurred.text jsonStyle = x.text jsonStyle := by
  cases h : x.isFinite with
  | true => rw [blurred_of_finite h]
  | false => rw [text_of_not_finite h, text_of_not_finite (x.isFinite_blurred.trans h)]

/-- A numeral does not start like the word for all that is none. -/
theorem text_append_ne {x y : Binary64} (hx : x.isFinite = true) (hy : y.isFinite = false) (rest rest' : List Char) :
    x.text jsonStyle ++ rest ≠ y.text jsonStyle ++ rest' := by
  obtain ⟨n, htext, -⟩ := exists_numeral hx
  obtain ⟨c, cs, hc, hstart⟩ := n.text_cons
  rw [← htext, hc, text_of_not_finite hy]
  intro h
  rw [(List.cons.inj h).1] at hstart
  exact absurd hstart (by decide)

/-- The text keeps the number as far as JSON has one. -/
theorem text_legible (x : Binary64) : Json.Legible (·.text jsonStyle) blurred x := by
  intro y rest rest' hrest hrest' h
  cases hx : x.isFinite with
  | true =>
    cases hy : y.isFinite with
    | true =>
      obtain ⟨rfl, hrests⟩ := eq_of_text hx hy hrest hrest' h
      exact ⟨rfl, hrests⟩
    | false => exact (text_append_ne hx hy rest rest' h).elim
  | false =>
    cases hy : y.isFinite with
    | true => exact (text_append_ne hy hx rest' rest h.symm).elim
    | false =>
      dsimp only at h
      rw [text_of_not_finite hx, text_of_not_finite hy] at h
      rw [blurred_of_not_finite hx, blurred_of_not_finite hy]
      exact ⟨rfl, List.append_cancel_left h⟩

end Binary64
end ResultCache
