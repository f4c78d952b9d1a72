namespace CharGrammar

/-- A key has a rank of its own, and collections list their keys by ascending rank. -/
class Key (κ : Type) where
  rank : κ → Nat
  rank_injective : ∀ {a b : κ}, rank a = rank b → a = b

namespace Key

/-- `a` comes strictly before `b`. -/
def Before [Key κ] (a b : κ) : Prop := rank a < rank b

instance [Key κ] (a b : κ) : Decidable (Before a b) :=
  inferInstanceAs (Decidable (rank a < rank b))

theorem Before.trans [Key κ] {a b c : κ} (hab : Before a b) (hbc : Before b c) : Before a c :=
  Nat.lt_trans hab hbc

theorem Before.ne [Key κ] {a b : κ} (h : Before a b) : a ≠ b := by
  intro he
  subst he
  exact Nat.lt_irrefl _ h

theorem before_of_not [Key κ] {a b : κ} (hlt : ¬ Before a b) (hne : a ≠ b) : Before b a :=
  Nat.lt_of_le_of_ne (Nat.le_of_not_lt hlt) (fun he => hne (rank_injective he.symm))

/-- In ascending order the same things make the same list. -/
theorem eq_of_ascending [Key κ] {α : Type} {f : α → κ} {xs ys : List α}
    (hx : xs.Pairwise fun a b => Before (f a) (f b))
    (hy : ys.Pairwise fun a b => Before (f a) (f b)) (h : ∀ a, a ∈ xs ↔ a ∈ ys) : xs = ys := by
  have hnodup {zs : List α} (hz : zs.Pairwise fun a b => Before (f a) (f b)) : zs.Nodup :=
    hz.imp fun hb he => hb.ne (congrArg f he)
  have hp := (List.perm_ext_iff_of_nodup (hnodup hx) (hnodup hy)).mpr h
  refine hp.eq_of_pairwise ?_ hx hy
  intro a b _ _ hab hba
  exact absurd rfl (hab.trans hba).ne

end Key

theorem toNat_lt_char_bound (c : Char) : c.toNat < 0x110000 := by
  have h := c.valid
  simp only [UInt32.isValidChar, Nat.isValidChar] at h
  simp only [Char.toNat]
  omega

/-- Characters are ordered by code point. -/
instance : Key Char where
  rank := Char.toNat
  rank_injective := Char.toNat_inj.mp

/-- Pairs of characters are ordered by the first and then by the second. -/
instance : Key (Char × Char) where
  rank p := p.1.toNat * 0x110000 + p.2.toNat
  rank_injective := by
    rintro ⟨a, b⟩ ⟨c, d⟩ h
    have hb := toNat_lt_char_bound b
    have hd := toNat_lt_char_bound d
    simp only at h
    have ha : a.toNat = c.toNat := by omega
    have hb : b.toNat = d.toNat := by omega
    rw [Char.toNat_inj.mp ha, Char.toNat_inj.mp hb]

end CharGrammar
