import ResultCache.Host

/-! Objects in the slots of a program. An object is new to the slots if it was just made, or was found
and kept; letting go of a slot adds none. -/
namespace ResultCache

namespace Slots
variable {V : Type} [DecidableEq V] {s : Slots V} {v w : V}

theorem inUse_iff : s.inUse v = true ↔ ∃ name, (name, v) ∈ s.entries := by
  rw [inUse, List.any_eq_true]
  constructor
  · rintro ⟨⟨name, w⟩, hm, hw⟩
    exact ⟨name, eq_of_beq hw ▸ hm⟩
  · rintro ⟨name, hm⟩
    exact ⟨(name, v), hm, beq_self_eq_true v⟩

theorem inUse_of_get? {name : String} (h : s.get? name = some v) : s.inUse v = true := by
  obtain ⟨before, after, he, -⟩ := List.lookup_eq_some_iff.mp h
  refine inUse_iff.mpr ⟨name, ?_⟩
  rw [he]
  exact List.mem_append_right _ List.mem_cons_self

theorem inUse_of_release {name : String} (h : (s.release name).inUse v = true) : s.inUse v = true := by
  obtain ⟨slot, hm⟩ := inUse_iff.mp h
  exact inUse_iff.mpr ⟨slot, (List.mem_filter.mp hm).1⟩

theorem inUse_of_hold {name : String} (h : (s.hold name v).inUse w = true) :
    w = v ∨ s.inUse w = true := by
  obtain ⟨slot, hm⟩ := inUse_iff.mp h
  rcases List.mem_cons.mp hm with hnew | hold
  · exact .inl (congrArg Prod.snd hnew)
  · exact .inr (inUse_of_release (inUse_iff.mpr ⟨slot, hold⟩))

end Slots

namespace Host
variable {α : Type} {h : Host α} {o : Object α}

theorem made_keep (slot : Option String) (found : Option (Object α)) : (h.keep slot found).made = h.made := by
  cases slot <;> cases found <;> rfl

variable [DecidableEq α]

theorem inUse_of_keep {slot : Option String} {found : Option (Object α)}
    (hk : (h.keep slot found).inUse o = true) : h.inUse o = true ∨ found = some o := by
  cases slot with
  | none => exact .inl hk
  | some name =>
    cases found with
    | none => exact .inl hk
    | some object =>
      rcases Slots.inUse_of_hold hk with rfl | hold
      · exact .inr rfl
      · exact .inl hold

/-- A value comes from a slot, or it is the next object that was made. -/
theorem take?_cases {source : Source α} {h' : Host α} (ht : h.take? source = some (o, h')) :
    h'.slots = h.slots ∧
      (h.inUse o = true ∧ h'.made = h.made ∨ o.id = h.made ∧ h'.made = h.made + 1) := by
  cases source with
  | fresh content =>
    cases ht
    exact ⟨rfl, .inr ⟨rfl, rfl⟩⟩
  | slot name =>
    obtain ⟨object, hget, hpair⟩ := Option.map_eq_some_iff.mp ht
    cases hpair
    exact ⟨rfl, .inl ⟨Slots.inUse_of_get? hget, rfl⟩⟩

end Host
end ResultCache
