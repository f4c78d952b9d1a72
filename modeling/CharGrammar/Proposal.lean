namespace CharGrammar

/-- Parts that make a thing if they are valid. A check tells what is wrong first with those that
are not. -/
class Proposal (π : Type) (ε α : outParam Type) where
  Valid : π → Prop
  fault? : π → Option ε
  fault?_eq_none_iff {p : π} : fault? p = none ↔ Valid p
  accept (p : π) (h : Valid p) : α
  parts : α → π
  parts_accept {p : π} (h : Valid p) : parts (accept p h) = p
  exists_accept (a : α) : ∃ h : Valid (parts a), accept (parts a) h = a

namespace Proposal

variable {π ε α : Type} [Proposal π ε α] {p : π} {e : ε} {a b : α}

def check (p : π) : Except ε α :=
  match h : fault? p with
  | none => .ok (accept p (fault?_eq_none_iff.mp h))
  | some e => .error e

theorem valid_parts (a : α) : Valid (parts a : π) := (exists_accept a).1

theorem check_eq_ok_iff : check p = .ok a ↔ parts a = p := by
  unfold check
  split
  · next h =>
    constructor
    · intro he
      cases he
      exact parts_accept _
    · rintro rfl
      obtain ⟨_, ha⟩ := exists_accept (π := π) a
      rw [ha]
  · next h =>
    refine ⟨nofun, ?_⟩
    rintro rfl
    rw [fault?_eq_none_iff.mpr (valid_parts a)] at h
    cases h

/-- What is made of the same parts is the same. -/
theorem eq_of_parts_eq (h : (parts a : π) = parts b) : a = b :=
  Except.ok.inj ((check_eq_ok_iff.mpr h).symm.trans (check_eq_ok_iff.mpr rfl))

theorem check_eq_error_iff : check p = .error e ↔ fault? p = some e := by
  unfold check
  split <;> simp_all

theorem exists_check_iff : (∃ a, check p = .ok a) ↔ Valid p := by
  constructor
  · rintro ⟨a, ha⟩
    exact check_eq_ok_iff.mp ha ▸ valid_parts a
  · intro h
    exact ⟨accept p h, check_eq_ok_iff.mpr (parts_accept h)⟩

end Proposal

end CharGrammar
