import Mathlib.Algebra.Group.Nat.Defs
import ResultCache.Proofs.Fingerprint.Equality
import ResultCache.Proofs.Part.Integer

/-! What equal fingerprints say about the statements they stand for. The parts of a fingerprint have
no names, so a text bound last and an environment look alike; all else can be read back. -/
namespace ResultCache.Statement

/-- The first statement has no environment, and binds after the parameters of the second one more: the
text of the second one's environment. -/
def BindsEnvironmentOf (a b : Statement) : Prop :=
  ∃ e, a.environment = none ∧ b.environment = some e ∧ a.params = b.params ++ [.text e]

theorem fingerprint_proper {s : Statement} (h : s.params.length < 2 ^ 31) : s.fingerprint.Proper := by
  refine ⟨.statement s, ?_⟩
  have hp : s.fingerprint.parts.toList = s.parts := Fingerprint.parts_ofParts s.parts
  have henv := Option.length_toList_le (o := s.environment)
  have hbound : UInt32.size = 2 ^ 32 := rfl
  rw [← Array.length_toList, hp, parts, List.length_append, List.length_append, List.length_map]
  simp only [List.length_cons, List.length_nil]
  omega

theorem fingerprint_beq_iff {a b : Statement} (ha : a.params.length < 2 ^ 31)
    (hb : b.params.length < 2 ^ 31) :
    (a.fingerprint == b.fingerprint) = true ↔ a.parts = b.parts := by
  rw [(fingerprint_proper ha).beq_iff (fingerprint_proper hb), ← Array.toList_inj]
  change (Fingerprint.ofParts a.parts).parts.toList = (Fingerprint.ofParts b.parts).parts.toList ↔ _
  rw [Fingerprint.parts_ofParts, Fingerprint.parts_ofParts]

private theorem head_of_parts {a b : Statement} (h : a.parts = b.parts) :
    a.id = b.id ∧ a.offset = b.offset ∧ a.limit = b.limit ∧ a.sql = b.sql ∧
      a.params ++ a.environment.toList.map .text = b.params ++ b.environment.toList.map .text := by
  rw [parts, parts, List.append_assoc, List.append_assoc] at h
  obtain ⟨hhead, htail⟩ := List.append_inj h rfl
  simp only [List.cons.injEq, Part.text.injEq] at hhead
  obtain ⟨hid, hoffset, hlimit, hsql, -⟩ := hhead
  exact ⟨hid, Part.toPart_word_injective hoffset, Part.toPart_word_injective hlimit, hsql, htail⟩

private theorem tail_of_parts {a b : Statement}
    (h : a.params ++ a.environment.toList.map .text = b.params ++ b.environment.toList.map .text) :
    (a.params = b.params ∧ a.environment = b.environment) ∨
      a.BindsEnvironmentOf b ∨ b.BindsEnvironmentOf a := by
  rcases ha : a.environment with _ | e
  · rw [ha, Option.toList_none, List.map_nil, List.append_nil] at h
    rcases hb : b.environment with _ | e'
    · rw [hb, Option.toList_none, List.map_nil, List.append_nil] at h
      exact .inl ⟨h, rfl⟩
    · rw [hb] at h
      exact .inr (.inl ⟨e', ha, hb, h⟩)
  · rw [ha] at h
    rcases hb : b.environment with _ | e'
    · rw [hb, Option.toList_none, List.map_nil, List.append_nil] at h
      exact .inr (.inr ⟨e, hb, ha, h.symm⟩)
    · rw [hb] at h
      obtain ⟨hp, he⟩ := List.append_inj' h rfl
      exact .inl ⟨hp, congrArg some (Part.text.inj (List.cons.inj he).1)⟩

private theorem length_of_bindsEnvironment {a b : Statement} (h : a.BindsEnvironmentOf b) :
    a.params.length = b.params.length + 1 := by
  obtain ⟨e, -, -, hp⟩ := h
  rw [hp, List.length_append, List.length_singleton]

/-- Statements with equal fingerprints have the same identifier, window and SQL. Their parameters and
environments are the same too, unless one of them binds the other's environment as a parameter of its
own, which takes one parameter more. -/
theorem fields_of_fingerprint_beq {a b : Statement} (ha : a.params.length < 2 ^ 31)
    (hb : b.params.length < 2 ^ 31) (h : (a.fingerprint == b.fingerprint) = true) :
    a.id = b.id ∧ a.offset = b.offset ∧ a.limit = b.limit ∧ a.sql = b.sql ∧
      ((a.params = b.params ∧ a.environment = b.environment) ∨
        a.BindsEnvironmentOf b ∨ b.BindsEnvironmentOf a) ∧
      (a.params.length = b.params.length → a.params = b.params ∧ a.environment = b.environment) := by
  obtain ⟨hid, hoffset, hlimit, hsql, htail⟩ := head_of_parts ((fingerprint_beq_iff ha hb).mp h)
  have hcases := tail_of_parts htail
  refine ⟨hid, hoffset, hlimit, hsql, hcases, fun hlength => ?_⟩
  rcases hcases with hsame | hbinds | hbinds
  · exact hsame
  · have := length_of_bindsEnvironment hbinds
    omega
  · have := length_of_bindsEnvironment hbinds
    omega

/-- The order in which a statement is put together does not matter, with an offset beyond the signed
words and a null among the parameters. -/
theorem fields_of_two_orders :
    let query : Statement := { id := "UserMapper.selectByName" }
    let a := (((query.withSql "select").page 0x8000000000000000 20).bindAll [.text "ada", .null]).inEnvironment "dev"
    let b := ((((query.inEnvironment "dev").bind (.text "ada")).bind .null).page 0x8000000000000000 20).withSql "select"
    (a.fingerprint == b.fingerprint) = true ∧ a.offset = b.offset ∧ a.params = b.params ∧
      a.environment = b.environment := by
  intro query a b
  have ha : a.params.length < 2 ^ 31 := by decide
  have hb : b.params.length < 2 ^ 31 := by decide
  have h : (a.fingerprint == b.fingerprint) = true := (fingerprint_beq_iff ha hb).mpr rfl
  obtain ⟨-, hoffset, -, -, -, hsame⟩ := fields_of_fingerprint_beq ha hb h
  exact ⟨h, hoffset, hsame rfl⟩

/-- A parameter and an environment with the same text give one fingerprint. -/
theorem fingerprint_of_environment_as_parameter :
    let query := ({ id := "UserMapper.selectByName" } : Statement).withSql
      "select * from users where name = ?"
    let a := query.bind (.text "dev")
    let b := query.inEnvironment "dev"
    a.params.length < 2 ^ 31 ∧ b.params.length < 2 ^ 31 ∧ (a.fingerprint == b.fingerprint) = true ∧
      a.params ≠ b.params ∧ a.environment ≠ b.environment := by
  intro query a b
  have ha : a.params.length < 2 ^ 31 := by decide
  have hb : b.params.length < 2 ^ 31 := by decide
  refine ⟨ha, hb, (fingerprint_beq_iff ha hb).mpr rfl, ?_, ?_⟩
  · intro hp
    cases hp
  · intro he
    cases he

end ResultCache.Statement
