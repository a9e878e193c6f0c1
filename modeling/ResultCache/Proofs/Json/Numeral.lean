import Mathlib.Tactic.NormNum
import ResultCache.Binary64.Text
import ResultCache.Proofs.Json.Reading
import ResultCache.Text.Decimal

/-! Numbers as they are written in JSON. Whatever is written out of the pieces of a number is read back as the
same pieces, as long as something follows that cannot be part of a number. -/
namespace ResultCache

theorem Text.integer_natCast (n : Nat) : integer n = natural n := by
  rw [integer, if_neg (Int.not_lt.mpr (Int.natCast_nonneg n)), Int.natAbs_natCast, List.nil_append]

namespace Json

/-- What may come after a value inside an array or an object. -/
def Delimited (rest : List Char) : Prop := ∃ c cs, rest = c :: cs ∧ (c = ',' ∨ c = ']' ∨ c = '}')

def IsDigits (ds : List Char) : Prop := ds ≠ [] ∧ ∀ c ∈ ds, c.isDigit = true

def digitValue (c : Char) : Nat := c.toNat - '0'.toNat

/-- The pieces of a number that is written without needless zeros in front. -/
structure Numeral where
  negative : Bool
  whole : List Char
  fraction : Option (List Char) := none
  exponent : Option Int := none
  whole_isDigits : IsDigits whole
  whole_head : whole.head? = some '0' → whole.length = 1
  fraction_isDigits : ∀ ds, fraction = some ds → IsDigits ds := by exact nofun

namespace Numeral

def text (n : Numeral) : List Char :=
  (if n.negative then ['-'] else []) ++ (n.whole ++ (n.fraction.elim [] ('.' :: ·) ++
    n.exponent.elim [] ('e' :: Binary64.signedText ·)))

def literal (n : Numeral) : Literal where
  negative := n.negative
  whole := n.whole.map digitValue
  fraction := n.fraction.map (·.map digitValue)
  exponent := n.exponent

end Numeral

/-- A number starts with its sign or a digit. -/
theorem Numeral.text_cons (n : Numeral) : ∃ c cs, n.text = c :: cs ∧ (c = '-' ∨ c.isDigit = true) := by
  obtain ⟨c, ds, hwhole⟩ := List.exists_cons_of_ne_nil n.whole_isDigits.1
  rw [text, hwhole]
  split
  · exact ⟨_, _, rfl, .inl rfl⟩
  · exact ⟨_, _, rfl, .inr (n.whole_isDigits.2 c (hwhole ▸ List.mem_cons_self))⟩

theorem foldl_digitValue (ds : List Char) :
    (ds.map digitValue).foldl (fun n digit => 10 * n + digit) 0 = Nat.ofDigitChars 10 ds 0 :=
  List.foldl_map

theorem isDigits_toDigits (n : Nat) : IsDigits (Nat.toDigits 10 n) :=
  ⟨Nat.toDigits_ne_nil, fun _ => Nat.isDigit_of_mem_toDigits (by decide) (Nat.le_refl 10)⟩

/-- Only zero is written with a zero in front. -/
theorem toDigits_head (n : Nat) (h : (Nat.toDigits 10 n).head? = some '0') : n = 0 := by
  induction n using Nat.strongRecOn with
  | _ n ih =>
    rw [Nat.toDigits_eq_if (by decide)] at h
    split at h
    · next hlt =>
      have hchar : ∀ m < 10, Nat.digitChar m = '0' → m = 0 := by decide
      exact hchar n hlt (Option.some.inj h)
    · next hge =>
      have hhead : (Nat.toDigits 10 (n / 10)).head? = some '0' := by
        rw [List.head?_append, List.head?_eq_some_head Nat.toDigits_ne_nil] at h
        exact (List.head?_eq_some_head _).trans h
      have := ih (n / 10) (by omega) hhead
      omega

/-- Sign and size together are the whole number. -/
theorem signed_natAbs (n : Int) : (if decide (n < 0) = true then -(n.natAbs : Int) else n.natAbs) = n := by
  split
  · next h =>
    have := of_decide_eq_true h
    omega
  · next h =>
    have := of_decide_eq_false (Bool.eq_false_iff.mpr h)
    omega

def Numeral.ofInt (n : Int) : Numeral where
  negative := n < 0
  whole := Text.natural n.natAbs
  whole_isDigits := isDigits_toDigits _
  whole_head h := by
    rw [Text.natural] at h ⊢
    rw [toDigits_head _ h]
    rfl

theorem Numeral.text_ofInt (n : Int) : (Numeral.ofInt n).text = Text.integer n := by
  rw [text, Text.integer]
  simp only [ofInt, Option.elim_none, List.append_nil, decide_eq_true_eq]

/-- A whole number can be told from its pieces. -/
theorem Numeral.literal_ofInt_injective {m n : Int} (h : (Numeral.ofInt m).literal = (Numeral.ofInt n).literal) :
    m = n := by
  have hvalue (k : Int) : ((Numeral.ofInt k).literal.whole).foldl (fun n digit => 10 * n + digit) 0 = k.natAbs :=
    (foldl_digitValue _).trans Nat.ofDigitChars_ten_toDigits
  have hsign : decide (m < 0) = decide (n < 0) := congrArg Literal.negative h
  have habs : m.natAbs = n.natAbs := by rw [← hvalue m, ← hvalue n, h]
  rw [decide_eq_decide] at hsign
  omega

namespace Reader
/-- Digits are taken up to the first character that is none. -/
theorem digits_yields {ds rest : List Char} (hds : ∀ c ∈ ds, c.isDigit = true)
    (hrest : ∀ c, rest.head? = some c → c.isDigit = false) :
    digits.Yields (ds ++ rest) (ds.map digitValue) rest := by
  have hstop : rest.takeWhile Char.isDigit = [] ∧ rest.dropWhile Char.isDigit = rest := by
    cases rest with
    | nil => exact ⟨rfl, rfl⟩
    | cons c rest => rw [List.takeWhile_cons, List.dropWhile_cons, hrest c rfl]; exact ⟨rfl, rfl⟩
  refine fun _ _ => ⟨?_, by rw [List.length_append]; omega⟩
  change Except.ok (((ds ++ rest).takeWhile Char.isDigit).map digitValue, (ds ++ rest).dropWhile Char.isDigit) = _
  rw [List.takeWhile_append_of_pos hds, List.dropWhile_append_of_pos hds, hstop.1, hstop.2, List.append_nil]

theorem someDigits_yields {ds rest : List Char} (onEnd : Fault) (hds : IsDigits ds)
    (hrest : ∀ c, rest.head? = some c → c.isDigit = false) :
    (someDigits onEnd).Yields (ds ++ rest) (ds.map digitValue) rest := by
  refine (digits_yields hds.2 hrest).bind ?_
  rw [if_neg (by simpa using hds.1)]
  exact .of_pure _ _

theorem digitValue_eq_zero {c : Char} (hc : c.isDigit = true) (h : digitValue c = 0) : c = '0' := by
  have hbounds := Char.isDigit_iff_toNat.mp hc
  rw [digitValue] at h
  exact Char.toNat_inj.mp (by omega)

theorem wholeDigits_yields {ds rest : List Char} (onEnd : Fault) (hds : IsDigits ds)
    (hhead : ds.head? = some '0' → ds.length = 1) (hrest : ∀ c, rest.head? = some c → c.isDigit = false) :
    (wholeDigits onEnd).Yields (ds ++ rest) (ds.map digitValue) rest := by
  refine (someDigits_yields onEnd hds hrest).bind ?_
  have hzero : ¬ ((ds.map digitValue).head? = some 0 ∧ (ds.map digitValue).length ≠ 1) := by
    rintro ⟨h, hlength⟩
    rw [List.head?_map, Option.map_eq_some_iff] at h
    obtain ⟨c, hc, hvalue⟩ := h
    rw [digitValue_eq_zero (hds.2 c (List.mem_of_head? hc)) hvalue] at hc
    exact hlength ((List.length_map _).trans (hhead hc))
  rw [if_neg hzero]
  exact .of_pure _ _

theorem fraction_yields {fraction : Option (List Char)} {rest : List Char} (onEnd : Fault)
    (hds : ∀ ds, fraction = some ds → IsDigits ds) (hrest : ∀ c, rest.head? = some c → c.isDigit = false)
    (hpoint : rest.head? ≠ some '.') : (Reader.fraction onEnd).Yields
      (fraction.elim [] ('.' :: ·) ++ rest) (fraction.map (·.map digitValue)) rest := by
  refine (peek_yields _).bind ?_
  cases fraction with
  | none =>
    change Yields (if rest.head? = some '.' then _ else _) rest none rest
    rw [if_neg hpoint]
    exact .of_pure none rest
  | some ds =>
    change Yields (if some '.' = some '.' then _ else _) ('.' :: ds ++ rest) _ rest
    rw [if_pos rfl]
    exact (advance_yields _ _).bind ((someDigits_yields onEnd (hds ds rfl) hrest).bind (.of_pure _ _))

theorem exponent_yields {exponent : Option Int} {rest : List Char} (onEnd : Fault)
    (hrest : ∀ c, rest.head? = some c → c.isDigit = false) (hmark : ∀ c, rest.head? = some c → c ≠ 'e' ∧ c ≠ 'E') :
    (Reader.exponent onEnd).Yields (exponent.elim [] ('e' :: Binary64.signedText ·) ++ rest) exponent rest := by
  refine (peek_yields _).bind ?_
  cases exponent with
  | none =>
    rw [Option.elim_none, List.nil_append]
    split
    · next h => exact ((hmark _ h).1 rfl).elim
    · next h => exact ((hmark _ h).2 rfl).elim
    · exact .of_pure none rest
  | some n =>
    refine (advance_yields _ _).bind ?_
    have hsign : sign.Yields (Binary64.signedText n ++ rest) (decide (n < 0))
        (Nat.toDigits 10 n.natAbs ++ rest) := by
      rw [Binary64.signedText]
      by_cases h : n < 0
      · rw [if_pos h, decide_eq_true h]
        exact (peek_yields _).bind ((advance_yields _ _).bind (.of_pure _ _))
      · rw [if_neg h, decide_eq_false h]
        exact (peek_yields _).bind ((advance_yields _ _).bind (.of_pure _ _))
    refine hsign.bind ((someDigits_yields onEnd (isDigits_toDigits _) hrest).bind ?_)
    rw [foldl_digitValue, Nat.ofDigitChars_ten_toDigits]
    dsimp only
    rw [signed_natAbs]
    exact .of_pure (some n) rest

/-- A number that is followed by what cannot be part of it is read back in its pieces. -/
theorem literal_yields (n : Numeral) (onEnd : Fault) {rest : List Char} (hrest : Delimited rest) :
    (literal onEnd).Yields (n.text ++ rest) n.literal rest := by
  obtain ⟨mark, rest, rfl, hmark⟩ := hrest
  have hend : ∀ c, (mark :: rest).head? = some c → c.isDigit = false ∧ c ≠ '.' ∧ c ≠ 'e' ∧ c ≠ 'E' := by
    rintro c ⟨rfl⟩
    rcases hmark with rfl | rfl | rfl <;> decide
  have hexponent : ∀ c, (n.exponent.elim [] ('e' :: Binary64.signedText ·) ++ mark :: rest).head? = some c →
      c.isDigit = false ∧ c ≠ '.' := by
    intro c hc
    cases he : n.exponent with
    | none =>
      rw [he] at hc
      exact ⟨(hend c hc).1, (hend c hc).2.1⟩
    | some e =>
      rw [he] at hc
      obtain ⟨rfl⟩ := hc
      decide
  have hfraction : ∀ c, (n.fraction.elim [] ('.' :: ·) ++
      (n.exponent.elim [] ('e' :: Binary64.signedText ·) ++ mark :: rest)).head? = some c → c.isDigit = false := by
    intro c hc
    cases hf : n.fraction with
    | none =>
      rw [hf] at hc
      exact (hexponent c hc).1
    | some ds =>
      rw [hf] at hc
      obtain ⟨rfl⟩ := hc
      decide
  have hpieces (negative : Bool) : Yields (do
      let whole ← wholeDigits onEnd
      let fraction ← fraction onEnd
      let exponent ← exponent onEnd
      return ({ negative, whole, fraction, exponent } : Literal)) (n.whole ++ (n.fraction.elim [] ('.' :: ·) ++
        (n.exponent.elim [] ('e' :: Binary64.signedText ·) ++ mark :: rest)))
      { n.literal with negative } (mark :: rest) := by
    refine (wholeDigits_yields onEnd n.whole_isDigits n.whole_head hfraction).bind ?_
    refine (fraction_yields onEnd n.fraction_isDigits (fun c hc => (hexponent c hc).1)
      (fun hc => (hexponent '.' hc).2 rfl)).bind ?_
    exact (exponent_yields onEnd (fun c hc => (hend c hc).1) (fun c hc => (hend c hc).2.2)).bind (.of_pure _ _)
  rw [Numeral.text, List.append_assoc, List.append_assoc, List.append_assoc]
  refine (peek_yields _).bind ?_
  have hliteral : n.literal = { n.literal with negative := n.negative } := rfl
  rw [hliteral]
  cases n.negative with
  | true => exact (advance_yields '-' _).bind (hpieces true)
  | false =>
    obtain ⟨c, ds, hwhole⟩ := List.exists_cons_of_ne_nil n.whole_isDigits.1
    have hdigit : c.isDigit = true := n.whole_isDigits.2 c (hwhole ▸ List.mem_cons_self)
    have hplus : (n.whole ++ (n.fraction.elim [] ('.' :: ·) ++
        (n.exponent.elim [] ('e' :: Binary64.signedText ·) ++ mark :: rest))).head? ≠ some '-' := by
      rw [hwhole]
      rintro ⟨rfl⟩
      cases hdigit
    dsimp only
    rw [if_neg Bool.false_ne_true, List.nil_append, if_neg hplus, decide_eq_false hplus]
    exact hpieces false

end Reader

theorem le_foldl_digits (s : Nat) (ds : List Nat) : s ≤ ds.foldl (fun n digit => 10 * n + digit) s := by
  induction ds generalizing s with
  | nil => exact Nat.le_refl s
  | cons d ds ih =>
    have := ih (10 * s + d)
    rw [List.foldl_cons]
    omega

/-- Digits of a number that fits in 64 bits are all used. -/
theorem absorb_eq {s : Nat} {ds : List Nat}
    (h : ds.foldl (fun n digit => 10 * n + digit) s < 0x10000000000000000) :
    absorb s ds = (ds.foldl (fun n digit => 10 * n + digit) s, ds.length) := by
  induction ds generalizing s with
  | nil => rfl
  | cons d ds ih =>
    rw [List.foldl_cons] at h ⊢
    have hnext := Nat.lt_of_le_of_lt (le_foldl_digits (10 * s + d) ds) h
    rw [absorb, if_pos hnext, ih h]
    rfl

/-- A whole number that fits in a word of 64 bits, with or without a sign, is read as such. -/
theorem number?_ofInt {n : Int} (hlow : -0x8000000000000000 ≤ n) (hhigh : n < 0x10000000000000000) :
    (Numeral.ofInt n).literal.number? = some (.whole n) := by
  have hdigits : (Numeral.ofInt n).literal.whole.foldl (fun n digit => 10 * n + digit) 0 = n.natAbs :=
    (foldl_digitValue _).trans Nat.ofDigitChars_ten_toDigits
  have habsorb : absorb 0 (Numeral.ofInt n).literal.whole =
      (n.natAbs, (Numeral.ofInt n).literal.whole.length) := by
    rw [absorb_eq (by rw [hdigits]; omega), hdigits]
  have hsign : (Numeral.ofInt n).literal.negative = decide (n < 0) := rfl
  have hrange : (!decide (n < 0) || (decide (0 < n.natAbs) && decide (n.natAbs ≤ 0x8000000000000000))) = true := by
    simp only [Bool.or_eq_true, Bool.not_eq_true', decide_eq_false_iff_not, Bool.and_eq_true, decide_eq_true_eq]
    omega
  rw [Literal.number?, habsorb]
  dsimp only
  rw [hsign, hrange, beq_self_eq_true, signed_natAbs]
  rfl

namespace Reader

theorem number_yields {n : Int} (hlow : -0x8000000000000000 ≤ n) (hhigh : n < 0x10000000000000000)
    {rest : List Char} (hrest : Delimited rest) : number.Yields (Text.integer n ++ rest) (.whole n) rest := by
  have hliteral := literal_yields (Numeral.ofInt n) .truncated hrest
  rw [Numeral.text_ofInt] at hliteral
  refine hliteral.bind ?_
  rw [number?_ofInt hlow hhigh]
  exact .of_pure _ rest

/-- A whole number that fits is read as a value, however deep it stands. -/
theorem value_yields {n : Int} (hlow : -0x8000000000000000 ≤ n) (hhigh : n < 0x10000000000000000) (depth : Nat)
    {rest : List Char} (hrest : Delimited rest) :
    (value depth).Yields (Text.integer n ++ rest) (.number (.whole n)) rest := by
  have hnumber := number_yields hlow hhigh hrest
  obtain ⟨c, cs, htext, hc⟩ := (Numeral.ofInt n).text_cons
  rw [Numeral.text_ofInt] at htext
  rw [htext, List.cons_append] at hnumber ⊢
  have hother (d : Char) (hd : ¬ (d = '-' ∨ d.isDigit = true)) : c ≠ d := fun h => hd (h ▸ hc)
  have hspace : isSpace c = false := by
    rw [isSpace, beq_false_of_ne (hother ' ' (by decide)), beq_false_of_ne (hother '\n' (by decide)),
      beq_false_of_ne (hother '\t' (by decide)), beq_false_of_ne (hother '\r' (by decide))]
    rfl
  have hscalar : (scalar c).Yields (c :: (cs ++ rest)) (.number (.whole n)) rest := by
    unfold scalar
    split
    · exact (hother 'n' (by decide) rfl).elim
    · exact (hother 't' (by decide) rfl).elim
    · exact (hother 'f' (by decide) rfl).elim
    · exact (hother '"' (by decide) rfl).elim
    · rw [if_pos hc]
      exact hnumber.bind (.of_pure _ rest)
  refine .of_enoughSteps fun steps hsteps => ?_
  obtain ⟨steps, rfl⟩ := Nat.exists_eq_add_one_of_ne_zero (Nat.ne_of_gt (Nat.zero_lt_of_lt hsteps))
  refine (peekSolid_yields hspace _).bind ?_
  dsimp only
  split
  · next h => cases h
  · next h => exact (hother '[' (by decide) (Option.some.inj h)).elim
  · next h => exact (hother '\x7b' (by decide) (Option.some.inj h)).elim
  · next h =>
    rw [← Option.some.inj h]
    exact hscalar

end Reader
end Json
end ResultCache
