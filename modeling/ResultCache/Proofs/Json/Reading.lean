import ResultCache.Json.Reader
import ResultCache.Json.Writer

/-! What readers make of written text. A reader is described by the text in front that it takes and the value
that it gives, so that readers put together are described by the texts one after the other. -/
namespace ResultCache.Json.Reader

variable {α β : Type}

/-- The reader takes the text up to this rest and gives this value, wherever the text may stand. -/
def Yields (reader : Reader α) (text : List Char) (value : α) (rest : List Char) : Prop :=
  ∀ total, text.length ≤ total → reader.run total text = .ok (value, rest) ∧ rest.length ≤ text.length

theorem Yields.of_pure (value : α) (text : List Char) : (pure value : Reader α).Yields text value text :=
  fun _ _ => ⟨rfl, Nat.le_refl _⟩

theorem Yields.bind {reader : Reader α} {next : α → Reader β} {text between rest : List Char} {a : α} {b : β}
    (h : reader.Yields text a between) (hnext : (next a).Yields between b rest) :
    (reader >>= next).Yields text b rest := by
  intro total htotal
  obtain ⟨hread, hle⟩ := h total htotal
  obtain ⟨hread', hle'⟩ := hnext total (Nat.le_trans hle htotal)
  refine ⟨?_, Nat.le_trans hle' hle⟩
  change (reader.run total text >>= fun result => (next result.1).run total result.2) = _
  rw [hread]
  exact hread'

/-- One text is read in one way only. -/
theorem Yields.unique {reader : Reader α} {text rest rest' : List Char} {a b : α}
    (h : reader.Yields text a rest) (h' : reader.Yields text b rest') : a = b ∧ rest = rest' := by
  have hread := (h text.length (Nat.le_refl _)).1.symm.trans (h' text.length (Nat.le_refl _)).1
  exact Prod.mk.inj (Except.ok.inj hread)

/-- Steps are taken from a number that is greater than the length of the text. -/
theorem Yields.of_enoughSteps {next : Nat → Reader β} {text rest : List Char} {b : β}
    (h : ∀ steps, text.length < steps → (next steps).Yields text b rest) :
    (enoughSteps >>= next).Yields text b rest :=
  fun total htotal => h (2 * total + 2) (by omega) total htotal

theorem peek_yields (text : List Char) : peek.Yields text text.head? text :=
  fun _ _ => ⟨rfl, Nat.le_refl _⟩

theorem peekSolid_yields {c : Char} (h : isSpace c = false) (rest : List Char) :
    peekSolid.Yields (c :: rest) (some c) (c :: rest) := by
  refine fun _ _ => ⟨?_, Nat.le_refl _⟩
  change Except.ok (((c :: rest).dropWhile isSpace).head?, (c :: rest).dropWhile isSpace) = _
  rw [List.dropWhile_cons, h]
  rfl

theorem advance_yields (c : Char) (rest : List Char) : advance.Yields (c :: rest) () rest :=
  fun _ _ => ⟨rfl, Nat.le_succ _⟩

theorem expect_yields (text rest : List Char) : (expect text).Yields (text ++ rest) () rest := by
  induction text with
  | nil => exact .of_pure () rest
  | cons c text ih =>
    refine (peek_yields _).bind ?_
    change Yields (if c = c then _ else _) _ _ _
    rw [if_pos rfl]
    exact (advance_yields c _).bind ih

theorem hexValue?_digitChar : ∀ n < 16, hexValue? (Nat.digitChar n) = some n := by decide

theorem hex4_yields {a b c d : Nat} (ha : a < 16) (hb : b < 16) (hc : c < 16) (hd : d < 16)
    (rest : List Char) : hex4.Yields
      (Nat.digitChar a :: Nat.digitChar b :: Nat.digitChar c :: Nat.digitChar d :: rest)
      (16 * (16 * (16 * a + b) + c) + d) rest := by
  have hvalues : [Nat.digitChar a, Nat.digitChar b, Nat.digitChar c, Nat.digitChar d].mapM hexValue? =
      some [a, b, c, d] := by
    simp [hexValue?_digitChar, ha, hb, hc, hd]
  have hsum : [a, b, c, d].foldl (fun n value => 16 * n + value) 0 =
      16 * (16 * (16 * a + b) + c) + d := by
    simp only [List.foldl_cons, List.foldl_nil, Nat.mul_zero, Nat.zero_add]
  refine Yields.bind (fun _ _ => ⟨rfl, Nat.le_refl _⟩) ?_
  dsimp only
  rw [hvalues, ← hsum]
  exact fun _ _ => ⟨rfl, by simp only [List.length_cons]; omega⟩

private theorem escape_control (lenient : Bool) {c : Char} (h : c.toNat < 0x20) (rest : List Char) :
    (escape lenient).Yields
      (['u', '0', '0', Nat.digitChar (c.toNat / 16), Nat.digitChar (c.toNat % 16)] ++ rest) c rest := by
  have hvalue : 16 * (16 * (16 * 0 + 0) + c.toNat / 16) + c.toNat % 16 = c.toNat := by omega
  have hhex := hex4_yields (Nat.zero_lt_succ 15) (Nat.zero_lt_succ 15) (show c.toNat / 16 < 16 by omega)
    (show c.toNat % 16 < 16 by omega) rest
  rw [hvalue] at hhex
  refine (peek_yields _).bind ((advance_yields _ _).bind (hhex.bind ?_))
  have hself : (pure (Char.ofNat c.toNat) : Reader Char).Yields rest c rest := by
    rw [Char.ofNat_toNat]
    exact .of_pure c rest
  cases lenient with
  | true => exact hself
  | false =>
    change (unit c.toNat).Yields rest c rest
    rw [unit, if_neg (by omega), if_neg (by omega)]
    exact hself

private theorem quoteChar_cases (lenient : Bool) (c : Char) :
    (∃ code, quoteChar c = '\\' :: code ∧ ∀ rest, (escape lenient).Yields (code ++ rest) c rest) ∨
      (quoteChar c = [c] ∧ c ≠ '"' ∧ c ≠ '\\' ∧ ¬ c.toNat < 0x20) := by
  generalize hcode : quoteChar c = code
  unfold quoteChar at hcode
  split at hcode
  case h_8 hquote hbackslash _ _ _ _ _ =>
    split at hcode
    · next hcontrol => exact .inl ⟨_, hcode.symm, escape_control lenient hcontrol⟩
    · next hplain => exact .inr ⟨hcode.symm, hquote, hbackslash, hplain⟩
  all_goals exact .inl ⟨_, hcode.symm, fun _ _ _ => ⟨rfl, Nat.le_succ _⟩⟩

/-- The characters of a literal are read back up to the quote that closes it. -/
theorem characters_yields (lenient : Bool) {cs : List Char} {steps : Nat} (h : cs.length < steps)
    (rest : List Char) :
    (characters lenient steps).Yields (cs.flatMap quoteChar ++ '"' :: rest) cs rest := by
  induction cs generalizing steps with
  | nil =>
    obtain ⟨steps, rfl⟩ := Nat.exists_eq_add_one_of_ne_zero (Nat.ne_of_gt h)
    exact (peek_yields _).bind ((advance_yields _ _).bind (.of_pure [] rest))
  | cons c cs ih =>
    obtain ⟨steps, rfl⟩ := Nat.exists_eq_add_one_of_ne_zero (Nat.ne_of_gt (Nat.zero_lt_of_lt h))
    have hcs : (characters lenient steps).Yields (cs.flatMap quoteChar ++ '"' :: rest) cs rest :=
      ih (Nat.lt_of_succ_lt_succ h)
    rw [List.flatMap_cons, List.append_assoc]
    rcases quoteChar_cases lenient c with ⟨code, hcode, hescape⟩ | ⟨hself, hquote, hbackslash, hplain⟩
    · rw [hcode]
      exact (peek_yields _).bind ((advance_yields _ _).bind ((hescape _).bind
        (hcs.bind (.of_pure (c :: cs) rest))))
    · rw [hself]
      refine (peek_yields _).bind ?_
      dsimp only [List.head?, List.cons_append]
      refine (advance_yields _ _).bind ?_
      split
      · exact (hquote rfl).elim
      · exact (hbackslash rfl).elim
      · rw [if_neg hplain]
        exact hcs.bind (.of_pure (c :: cs) rest)

private theorem length_le_flatMap_quoteChar (cs : List Char) : cs.length ≤ (cs.flatMap quoteChar).length := by
  induction cs with
  | nil => exact Nat.le_refl 0
  | cons c cs ih =>
    have hpos : 0 < (quoteChar c).length := by
      rcases quoteChar_cases true c with ⟨code, hcode, -⟩ | ⟨hself, -⟩
      · rw [hcode]
        exact Nat.succ_pos _
      · rw [hself]
        exact Nat.one_pos
    rw [List.flatMap_cons, List.length_append, List.length_cons]
    omega

/-- A literal is read back after its opening quote. -/
theorem string_yields (lenient : Bool) (s : String) (rest : List Char) :
    (string lenient).Yields (s.toList.flatMap quoteChar ++ '"' :: rest) s rest := by
  intro total htotal
  have hlength := length_le_flatMap_quoteChar s.toList
  rw [List.length_append] at htotal
  have hsteps : s.toList.length < total + 1 := by omega
  have hstring : (characters lenient (total + 1) >>= fun cs => pure (String.ofList cs)).Yields
      (s.toList.flatMap quoteChar ++ '"' :: rest) s rest := by
    refine (characters_yields lenient hsteps rest).bind ?_
    rw [String.ofList_toList]
    exact .of_pure s rest
  exact hstring total (by rwa [List.length_append])

theorem key_yields (lenient : Bool) (s : String) (rest : List Char) :
    (key lenient).Yields (quote s ++ rest) s rest := by
  rw [quote, List.append_assoc]
  exact (peekSolid_yields rfl _).bind ((advance_yields _ _).bind (string_yields lenient s rest))

theorem colon_yields (rest : List Char) : colon.Yields (':' :: rest) () rest :=
  (peekSolid_yields rfl _).bind (advance_yields _ _)

/-- A comma announces another element. -/
theorem another_yields_true (close : Char) (rest : List Char) :
    (another close).Yields (',' :: rest) true rest :=
  (peekSolid_yields rfl _).bind ((advance_yields _ _).bind (.of_pure true rest))

theorem another_yields_false {close : Char} (h : close ≠ ',') (hspace : isSpace close = false) (rest : List Char) :
    (another close).Yields (close :: rest) false rest := by
  refine (peekSolid_yields hspace _).bind ((advance_yields _ _).bind ?_)
  rw [if_neg h, if_pos rfl]
  exact .of_pure false rest

theorem closes_yields_true {close : Char} (hspace : isSpace close = false) (rest : List Char) :
    (closes close).Yields (close :: rest) true rest := by
  refine (peekSolid_yields hspace _).bind ?_
  dsimp only
  rw [if_pos rfl]
  exact (advance_yields _ _).bind (.of_pure true rest)

theorem closes_yields_false {close c : Char} (h : c ≠ close) (hspace : isSpace c = false) (rest : List Char) :
    (closes close).Yields (c :: rest) false (c :: rest) := by
  refine (peekSolid_yields hspace _).bind ?_
  dsimp only
  rw [if_neg h]
  exact .of_pure false _

theorem finish_yields : finish.Yields [] () [] := fun _ _ => ⟨rfl, Nat.le_refl 0⟩

/-- A text with nothing behind the value is read as a whole. -/
theorem Yields.runAll {reader : Reader α} {text : String} {a : α} (h : reader.Yields text.toList a []) :
    reader.runAll text = .ok a := by
  have hall : (reader >>= fun a => finish >>= fun _ => pure a).Yields text.toList a [] :=
    h.bind (finish_yields.bind (.of_pure a []))
  change Prod.fst <$> (reader >>= fun a => finish >>= fun _ => pure a).run text.toList.length text.toList = _
  rw [(hall text.toList.length (Nat.le_refl _)).1]
  rfl

end ResultCache.Json.Reader
