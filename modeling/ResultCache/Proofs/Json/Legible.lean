import ResultCache.Proofs.Json.Numeral

/-! Written JSON that can be told apart. A text is legible if it shows where it ends and what it was written
from; an array of legible texts is legible again. -/
namespace ResultCache.Json

variable {α β : Type}

theorem delimited_comma (cs : List Char) : Delimited (',' :: cs) := ⟨_, cs, rfl, .inl rfl⟩

theorem delimited_bracket (cs : List Char) : Delimited (']' :: cs) := ⟨_, cs, rfl, .inr (.inl rfl)⟩

theorem delimited_brace (cs : List Char) : Delimited ('}' :: cs) := ⟨_, cs, rfl, .inr (.inr rfl)⟩

/-- No other value is written like this one, in front of what may come after a value, unless the same is kept
of both. -/
def Legible (text : α → List Char) (kept : α → β) (a : α) : Prop :=
  ∀ b rest rest', Delimited rest → Delimited rest' → text a ++ rest = text b ++ rest' →
    kept a = kept b ∧ rest = rest'

/-- A literal shows itself where it ends. -/
theorem quote_unique {s t : String} {rest rest' : List Char} (h : quote s ++ rest = quote t ++ rest') :
    s = t ∧ rest = rest' :=
  (Reader.key_yields true s rest).unique (h ▸ Reader.key_yields true t rest')

theorem boolText_legible (b : Bool) : Legible boolText id b := by
  rintro c rest rest' - - h
  cases b <;> cases c
  · exact ⟨rfl, List.append_cancel_left h⟩
  · cases h
  · cases h
  · exact ⟨rfl, List.append_cancel_left h⟩

theorem integer_legible (n : Int) : Legible Text.integer id n := by
  intro m rest rest' hrest hrest' h
  have hread := Reader.literal_yields (.ofInt n) .truncated hrest
  have hread' := Reader.literal_yields (.ofInt m) .truncated hrest'
  rw [Numeral.text_ofInt] at hread hread'
  rw [← h] at hread'
  obtain ⟨hliteral, hrests⟩ := hread.unique hread'
  exact ⟨Numeral.literal_ofInt_injective hliteral, hrests⟩

def moreText (items : List (List Char)) (rest : List Char) : List Char := items.flatMap (',' :: ·) ++ ']' :: rest

theorem moreText_cons (item : List Char) (items : List (List Char)) (rest : List Char) :
    moreText (item :: items) rest = ',' :: (item ++ moreText items rest) := by
  rw [moreText, moreText, List.flatMap_cons, List.append_assoc, List.cons_append]

theorem arrayText_cons_append (item : List Char) (items : List (List Char)) (rest : List Char) :
    arrayText (item :: items) ++ rest = '[' :: (item ++ moreText items rest) := by
  simp only [arrayText, separated, moreText, List.cons_append, List.append_assoc, List.nil_append]

theorem delimited_moreText (items : List (List Char)) (rest : List Char) : Delimited (moreText items rest) := by
  cases items with
  | nil => exact delimited_bracket rest
  | cons item items =>
    rw [moreText_cons]
    exact delimited_comma _

section
variable {text : α → List Char} {kept : α → β} {as bs : List α} {rest rest' : List Char}

theorem moreText_unique (has : ∀ a ∈ as, Legible text kept a)
    (h : moreText (as.map text) rest = moreText (bs.map text) rest') : as.map kept = bs.map kept ∧ rest = rest' := by
  induction as generalizing bs with
  | nil =>
    cases bs with
    | nil => exact ⟨rfl, (List.cons.inj h).2⟩
    | cons b bs => cases (List.cons.inj h).1
  | cons a as ih =>
    cases bs with
    | nil => cases (List.cons.inj h).1
    | cons b bs =>
      rw [List.map_cons, List.map_cons, moreText_cons, moreText_cons] at h
      obtain ⟨ha, has⟩ := List.forall_mem_cons.mp has
      obtain ⟨hfirst, hmore⟩ := ha b _ _ (delimited_moreText _ _) (delimited_moreText _ _) (List.cons.inj h).2
      obtain ⟨hothers, hrests⟩ := ih has hmore
      exact ⟨congrArg₂ List.cons hfirst hothers, hrests⟩

/-- An array with elements is not taken for an empty one. -/
theorem arrayText_nil_append_ne (hstart : ∀ a, ∃ c cs, text a = c :: cs ∧ c ≠ ']') (a : α) (as : List α) :
    arrayText [] ++ rest ≠ arrayText ((a :: as).map text) ++ rest' := by
  intro h
  obtain ⟨c, cs, htext, hc⟩ := hstart a
  rw [List.map_cons, arrayText_cons_append, htext] at h
  exact hc (List.cons.inj (List.cons.inj h).2).1.symm

/-- An array shows its elements, as long as none of them starts like the end of the array. -/
theorem arrayText_unique (hstart : ∀ a, ∃ c cs, text a = c :: cs ∧ c ≠ ']') (has : ∀ a ∈ as, Legible text kept a)
    (h : arrayText (as.map text) ++ rest = arrayText (bs.map text) ++ rest') :
    as.map kept = bs.map kept ∧ rest = rest' := by
  cases as with
  | nil =>
    cases bs with
    | nil => exact ⟨rfl, List.append_cancel_left h⟩
    | cons b bs => exact (arrayText_nil_append_ne hstart b bs h).elim
  | cons a as =>
    cases bs with
    | nil => exact (arrayText_nil_append_ne hstart a as h.symm).elim
    | cons b bs =>
      rw [List.map_cons, List.map_cons, arrayText_cons_append, arrayText_cons_append] at h
      obtain ⟨ha, has⟩ := List.forall_mem_cons.mp has
      obtain ⟨hfirst, hmore⟩ := ha b _ _ (delimited_moreText _ _) (delimited_moreText _ _) (List.cons.inj h).2
      obtain ⟨hothers, hrests⟩ := moreText_unique has hmore
      exact ⟨congrArg₂ List.cons hfirst hothers, hrests⟩

end
end ResultCache.Json
