import Mathlib.Tactic.SplitIfs

/-! Texts in the order of their bytes. UTF-8 gives greater characters greater bytes, at the first byte in which
they differ, so texts are ordered alike by their characters and by their bytes. -/
namespace ResultCache.Text
open String (utf8EncodeChar)

private theorem code_lt (c : Char) : c.val.toNat < 0x110000 := by
  rcases c.valid with h | h <;> omega

private theorem cons_lt_cons {m n : Nat} (hm : m < 256) (hn : n < 256) {xs ys : List UInt8} :
    UInt8.ofNat m :: xs < UInt8.ofNat n :: ys ↔ m < n ∨ m = n ∧ xs < ys := by
  rw [List.cons_lt_cons_iff, UInt8.lt_iff_toNat_lt, ← UInt8.toNat_inj, UInt8.toNat_ofNat', UInt8.toNat_ofNat',
    Nat.mod_eq_of_lt hm, Nat.mod_eq_of_lt hn]

/-- Whatever follows, the bytes of a greater character come later. -/
theorem utf8EncodeChar_append_lt {c d : Char} (h : c < d) (xs ys : List UInt8) :
    utf8EncodeChar c ++ xs < utf8EncodeChar d ++ ys := by
  have hlt : c.val.toNat < d.val.toNat := h
  have hc := code_lt c
  have hd := code_lt d
  rw [utf8EncodeChar, utf8EncodeChar]
  generalize c.val.toNat = v at *
  generalize d.val.toNat = w at *
  have hsplit : ∀ n : Nat, n < 0x110000 → n / 4096 = n / 64 / 64 ∧ n / 262144 % 8 = n / 64 / 64 / 64 :=
    fun n hn => by omega
  obtain ⟨hv, hv'⟩ := hsplit v hc
  obtain ⟨hw, hw'⟩ := hsplit w hd
  -- each byte but the first has six bits of the code, so smaller codes are smaller in the first group that differs
  have hgroups : v / 64 / 64 / 64 < w / 64 / 64 / 64 ∨
      v / 64 / 64 / 64 = w / 64 / 64 / 64 ∧ v / 64 / 64 % 64 < w / 64 / 64 % 64 ∨
      v / 64 / 64 = w / 64 / 64 ∧ v / 64 % 64 < w / 64 % 64 ∨ v / 64 = w / 64 ∧ v % 64 < w % 64 := by omega
  rw [hv, hv', hw, hw']
  split_ifs <;> simp (disch := omega) only [List.cons_append, List.nil_append, cons_lt_cons] <;> omega

private theorem flatMap_lt {cs ds : List Char} (h : List.Lex (· < ·) cs ds) :
    cs.flatMap utf8EncodeChar < ds.flatMap utf8EncodeChar := by
  induction h with
  | @nil d ds =>
    obtain ⟨b, bs, hbytes⟩ := List.exists_cons_of_ne_nil (String.utf8EncodeChar_ne_nil (c := d))
    rw [List.flatMap_nil, List.flatMap_cons, hbytes]
    exact List.nil_lt_cons _ _
  | rel hcd => exact utf8EncodeChar_append_lt hcd _ _
  | cons _ ih => exact List.append_left_lt ih

private theorem bytes_eq (s : String) : s.toUTF8.data.toList = s.toList.flatMap utf8EncodeChar := by
  rw [String.toUTF8_eq_toByteArray, ← String.utf8Encode_toList, List.utf8Encode, List.data_toByteArray,
    List.toList_toArray]

/-- A smaller text has smaller bytes. -/
theorem bytes_lt_of_lt {s t : String} (h : s < t) : s.toUTF8.data.toList < t.toUTF8.data.toList := by
  rw [bytes_eq, bytes_eq]
  exact flatMap_lt (List.lex_lt.mpr (String.lt_iff.mp h))

end ResultCache.Text
