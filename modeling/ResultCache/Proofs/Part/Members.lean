import Mathlib.Data.List.Sort
import ResultCache.Part.OfJson

/-! The members of an object as they are collected: in the order of their names, one of each name, the last that was
written. Which members count so determines the collected list. -/
namespace ResultCache.Part

variable {name n : String} {value p : Part} {collected : List (String × Part)} {members : List (String × Json)}

/-- The names grow strictly, so no name comes twice. -/
def Ascending (entries : List (String × Part)) : Prop := entries.Pairwise (·.1 < ·.1)

/-- The value is the last one written under the name. -/
def Counts (members : List (String × Json)) (name : String) (value : Json) : Prop :=
  ∃ before after, members = before ++ (name, value) :: after ∧ ∀ member ∈ after, member.1 ≠ name

private theorem mem_insertMember_of (entry : String × Part) (h : entry ∈ insertMember name value collected) :
    entry = (name, value) ∨ entry ∈ collected := by
  induction collected with
  | nil => exact .inl (List.mem_singleton.mp h)
  | cons member rest ih =>
    rw [insertMember] at h
    split at h
    · exact (List.mem_cons.mp h)
    · split at h
      · exact (List.mem_cons.mp h).imp_right (List.mem_cons_of_mem _)
      · obtain rfl | h := List.mem_cons.mp h
        · exact .inr List.mem_cons_self
        · exact (ih h).imp_right (List.mem_cons_of_mem _)

private theorem Ascending.insertMember (h : Ascending collected) (name : String) (value : Part) :
    Ascending (insertMember name value collected) := by
  induction collected with
  | nil => exact List.pairwise_singleton _ _
  | cons member rest ih =>
    obtain ⟨hfront, hrest⟩ := List.pairwise_cons.mp h
    rw [Part.insertMember]
    split
    · rename_i hlt
      refine List.pairwise_cons.mpr ⟨fun entry hentry => ?_, h⟩
      obtain rfl | hentry := List.mem_cons.mp hentry
      · exact hlt
      · exact String.lt_trans hlt (hfront entry hentry)
    · split
      · rename_i heq
        exact List.pairwise_cons.mpr ⟨fun entry hentry => heq ▸ hfront entry hentry, hrest⟩
      · rename_i hge hne
        refine List.pairwise_cons.mpr ⟨fun entry hentry => ?_, ih hrest⟩
        obtain rfl | hentry := mem_insertMember_of entry hentry
        · exact Std.lt_of_le_of_ne (String.not_lt.mp hge) (Ne.symm hne)
        · exact hfront entry hentry

private theorem mem_insertMember (h : Ascending collected) :
    (n, p) ∈ insertMember name value collected ↔ n = name ∧ p = value ∨ n ≠ name ∧ (n, p) ∈ collected := by
  induction collected with
  | nil => simp [insertMember]
  | cons member rest ih =>
    obtain ⟨hfront, hrest⟩ := List.pairwise_cons.mp h
    have hlater : (n, p) ∈ rest → member.1 < n := hfront (n, p)
    rw [insertMember]
    split
    · rename_i hlt
      -- the name comes before all others, so it is none of them
      have hne : (n, p) ∈ member :: rest → n ≠ name := by
        rintro hmem rfl
        obtain rfl | hmem := List.mem_cons.mp hmem
        · exact String.lt_irrefl _ hlt
        · exact String.lt_asymm hlt (hlater hmem)
      rw [List.mem_cons, Prod.mk.injEq]
      exact or_congr_right ⟨fun hmem => ⟨hne hmem, hmem⟩, And.right⟩
    · split
      · rename_i heq
        have hne : (n, p) ∈ rest → n ≠ name := by
          rintro hmem rfl
          exact String.lt_irrefl _ (heq ▸ hlater hmem)
        rw [List.mem_cons, Prod.mk.injEq]
        refine or_congr_right ⟨fun hmem => ⟨hne hmem, List.mem_cons_of_mem _ hmem⟩, ?_⟩
        rintro ⟨hne, hmem⟩
        exact (List.mem_cons.mp hmem).resolve_left fun hp => hne (heq ▸ congrArg Prod.fst hp)
      · rename_i hge hne
        rw [List.mem_cons, ih hrest, List.mem_cons]
        constructor
        · rintro (rfl | ⟨rfl, rfl⟩ | ⟨hn, hmem⟩)
          · exact .inr ⟨Ne.symm hne, .inl rfl⟩
          · exact .inl ⟨rfl, rfl⟩
          · exact .inr ⟨hn, .inr hmem⟩
        · rintro (hn | ⟨hn, rfl | hmem⟩)
          · exact .inr (.inl hn)
          · exact .inl rfl
          · exact .inr (.inr ⟨hn, hmem⟩)

theorem Ascending.ofMembers (h : Ascending collected) (members : List (String × Json)) :
    Ascending (ofMembers collected members) := by
  induction members generalizing collected with
  | nil => exact h
  | cons member members ih => exact ih (h.insertMember member.1 (ofJson member.2))

private theorem counts_cons {member : String × Json} {value : Json} :
    Counts (member :: members) n value ↔
      Counts members n value ∨ member = (n, value) ∧ ∀ other ∈ members, other.1 ≠ n := by
  constructor
  · rintro ⟨before, after, hsplit, hafter⟩
    cases before with
    | nil =>
      obtain ⟨rfl, rfl⟩ := List.cons.inj hsplit
      exact .inr ⟨rfl, hafter⟩
    | cons _ before => exact .inl ⟨before, after, (List.cons.inj hsplit).2, hafter⟩
  · rintro (⟨before, after, rfl, hafter⟩ | ⟨rfl, hafter⟩)
    · exact ⟨member :: before, after, rfl, hafter⟩
    · exact ⟨[], members, rfl, hafter⟩

private theorem mem_ofMembers_onto (h : Ascending collected) :
    (n, p) ∈ ofMembers collected members ↔
      (∃ value, Counts members n value ∧ p = ofJson value) ∨
        (∀ member ∈ members, member.1 ≠ n) ∧ (n, p) ∈ collected := by
  induction members generalizing collected with
  | nil => simp [ofMembers, Counts]
  | cons member members ih =>
    obtain ⟨name, value⟩ := member
    rw [ofMembers, ih (h.insertMember name (ofJson value)), mem_insertMember h]
    simp only [counts_cons, List.forall_mem_cons, Prod.mk.injEq]
    constructor
    · rintro (⟨v, hv, rfl⟩ | ⟨hnone, ⟨rfl, rfl⟩ | ⟨hne, hmem⟩⟩)
      · exact .inl ⟨v, .inl hv, rfl⟩
      · exact .inl ⟨value, .inr ⟨⟨rfl, rfl⟩, hnone⟩, rfl⟩
      · exact .inr ⟨⟨Ne.symm hne, hnone⟩, hmem⟩
    · rintro (⟨v, hv | ⟨⟨rfl, rfl⟩, hnone⟩, rfl⟩ | ⟨⟨hne, hnone⟩, hmem⟩)
      · exact .inl ⟨v, hv, rfl⟩
      · exact .inr ⟨hnone, .inl ⟨rfl, rfl⟩⟩
      · exact .inr ⟨hnone, .inr ⟨Ne.symm hne, hmem⟩⟩

/-- What an object collects is, for each of its names, the value written last. -/
theorem mem_ofMembers :
    (n, p) ∈ ofMembers [] members ↔ ∃ value, Counts members n value ∧ p = ofJson value := by
  rw [mem_ofMembers_onto List.Pairwise.nil, List.mem_nil_iff, and_false, or_false]

theorem Ascending.eq_of_mem_iff {entries others : List (String × Part)} (h : Ascending entries)
    (h' : Ascending others) (hmem : ∀ n p, (n, p) ∈ entries ↔ (n, p) ∈ others) : entries = others := by
  have : Std.Irrefl fun a b : String × Part => a.1 < b.1 := ⟨fun _ => String.lt_irrefl _⟩
  have : Std.Antisymm fun a b : String × Part => a.1 < b.1 := ⟨fun _ _ hab hba => absurd hba (String.lt_asymm hab)⟩
  exact List.Pairwise.eq_of_mem_iff h h' fun entry => hmem entry.1 entry.2

/-- Objects in which the same values count collect the same. -/
theorem ofMembers_congr {others : List (String × Json)}
    (h : ∀ n value, Counts members n value ↔ Counts others n value) :
    ofMembers [] members = ofMembers [] others := by
  refine Ascending.eq_of_mem_iff (.ofMembers .nil _) (.ofMembers .nil _) fun n p => ?_
  rw [mem_ofMembers, mem_ofMembers]
  exact exists_congr fun value => and_congr_left' (h n value)

theorem ofMembers_append (collected : List (String × Part)) (members others : List (String × Json)) :
    ofMembers collected (members ++ others) = ofMembers (ofMembers collected members) others := by
  induction members generalizing collected with
  | nil => rfl
  | cons member members ih => exact ih (insertMember member.1 (ofJson member.2) collected)

end ResultCache.Part
