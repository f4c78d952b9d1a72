import CharGrammar.Words.Source

namespace CharGrammar

/-- A source gives these words in order and goes on as another. -/
inductive Draws {σ : Type} [WordSource σ] : σ → List UInt32 → σ → Prop
  | none (source : σ) : Draws source [] source
  | some {source middle rest : σ} {word : UInt32} {words : List UInt32}
      (first : WordSource.next source = (word, middle)) (more : Draws middle words rest) :
      Draws source (word :: words) rest

namespace Choice

theorem count_le_zone {count : Nat} (h : 0 < count) : count - 1 ≤ zone count := by
  have hle : count ≤ count <<< (31 - count.log2) := by
    rw [Nat.shiftLeft_eq]
    exact Nat.le_mul_of_pos_right count (Nat.two_pow_pos _)
  unfold zone
  omega

theorem fair_zero {count : Nat} : Fair count 0 := by
  unfold Fair
  simp

/-- The least word whose product with the count reaches the index is fair, and stands for it. -/
theorem exists_fair_word {count i : Nat} (hc : count < UInt32.size) (hi : i < count) :
    ∃ word, Fair count word ∧ index count word = i := by
  have hpos : 0 < count := Nat.lt_of_le_of_lt (Nat.zero_le i) hi
  let v := (i * UInt32.size + (count - 1)) / count
  have hdiv : count * v + (i * UInt32.size + (count - 1)) % count =
      i * UInt32.size + (count - 1) := Nat.div_add_mod _ _
  have hmod : (i * UInt32.size + (count - 1)) % count < count := Nat.mod_lt _ hpos
  have hlow : i * UInt32.size ≤ count * v := by omega
  have hhigh : count * v ≤ i * UInt32.size + (count - 1) := by omega
  have hv : v < UInt32.size := by
    apply Nat.lt_of_mul_lt_mul_left (a := count)
    have hstep : (i + 1) * UInt32.size ≤ count * UInt32.size := Nat.mul_le_mul_right _ hi
    rw [Nat.succ_mul] at hstep
    omega
  obtain ⟨r, hr⟩ : ∃ r, v * count = i * UInt32.size + r :=
    ⟨v * count - i * UInt32.size, by rw [Nat.mul_comm v]; omega⟩
  have hrlt : r < count := by
    rw [Nat.mul_comm v] at hr
    omega
  have hword : (UInt32.ofNat v).toNat = v := UInt32.toNat_ofNat_of_lt' hv
  refine ⟨UInt32.ofNat v, ?_, ?_⟩
  · unfold Fair
    rw [hword, hr, Nat.mul_comm i, Nat.mul_add_mod, Nat.mod_eq_of_lt (Nat.lt_trans hrlt hc)]
    have := count_le_zone hpos
    omega
  · unfold index
    rw [hword, hr, Nat.mul_comm i, Nat.mul_add_div (by decide),
      Nat.div_eq_of_lt (Nat.lt_trans hrlt hc), Nat.add_zero]

end Choice

variable {α σ : Type} [WordSource σ] {first a : α} {rest : List α} {fuel : Nat}
  {source source' : σ}

theorem mem_of_choose (h : choose first rest fuel source = some (a, source')) :
    a ∈ first :: rest := by
  induction fuel generalizing source with
  | zero => cases h
  | succ fuel ih =>
    unfold choose at h
    dsimp only at h
    split at h
    · cases h
      exact List.get_mem _ _
    · exact ih h

/-- What each draw keeps of a source, a choice keeps. -/
theorem source_of_choose {P : σ → Prop} (hnext : ∀ source, P source → P (WordSource.next source).2)
    (h : choose first rest fuel source = some (a, source')) (hs : P source) : P source' := by
  induction fuel generalizing source with
  | zero => cases h
  | succ fuel ih =>
    unfold choose at h
    dsimp only at h
    split at h
    · cases h
      exact hnext source hs
    · exact ih h (hnext source hs)

/-- More fuel keeps a choice that was made. -/
theorem choose_mono {more : Nat} (h : choose first rest fuel source = some (a, source'))
    (hle : fuel ≤ more) : choose first rest more source = some (a, source') := by
  induction fuel generalizing more source with
  | zero => cases h
  | succ fuel ih =>
    cases more with
    | zero => cases hle
    | succ more =>
      unfold choose at h ⊢
      dsimp only at h ⊢
      split at h
      · next hf => rw [if_pos hf, h]
      · next hf =>
        rw [if_neg hf]
        exact ih h (Nat.le_of_succ_le_succ hle)

/-- Any element is chosen with one word, whatever the source does afterwards. -/
theorem exists_word_choose (hl : (first :: rest).length < UInt32.size) (ha : a ∈ first :: rest) :
    ∃ word, ∀ {σ : Type} [WordSource σ] (fuel : Nat) (source source' : σ),
      WordSource.next source = (word, source') →
      choose first rest (fuel + 1) source = some (a, source') := by
  obtain ⟨⟨i, hi⟩, rfl⟩ := List.get_of_mem ha
  obtain ⟨word, hf, hx⟩ := Choice.exists_fair_word hl hi
  refine ⟨word, ?_⟩
  intro σ _ fuel source source' hn
  subst hx
  rw [List.length_cons] at hf
  simp only [choose, hn, if_pos hf, List.length_cons]

end CharGrammar
