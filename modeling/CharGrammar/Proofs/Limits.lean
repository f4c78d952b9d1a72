import CharGrammar.Proofs.Expansions

namespace CharGrammar

namespace Limits

variable {limits looser : Limits} {n : Nat}

theorem stepsReached_eq_false_iff :
    limits.stepsReached n = false ↔ ∀ max ∈ limits.maxSteps, n < max := by
  unfold stepsReached
  cases limits.maxSteps <;> simp

theorem lengthPassed_eq_false_iff :
    limits.lengthPassed n = false ↔ ∀ max ∈ limits.maxLength, n ≤ max := by
  unfold lengthPassed
  cases limits.maxLength <;> simp

theorem stepsReached_eq_true_iff :
    limits.stepsReached n = true ↔ ∃ max ∈ limits.maxSteps, max ≤ n := by
  unfold stepsReached
  cases limits.maxSteps <;> simp

theorem lengthPassed_eq_true_iff :
    limits.lengthPassed n = true ↔ ∃ max ∈ limits.maxLength, max < n := by
  unfold lengthPassed
  cases limits.maxLength <;> simp

/-- So many steps and so long a result stay within the limits. -/
structure Allow (limits : Limits) (steps length : Nat) : Prop where
  steps_le : ∀ max ∈ limits.maxSteps, steps ≤ max
  length_le : ∀ max ∈ limits.maxLength, length ≤ max

/-- Each limit that is left was one before, and no greater. -/
structure Loosens (looser limits : Limits) : Prop where
  steps : ∀ max ∈ looser.maxSteps, ∃ former ∈ limits.maxSteps, former ≤ max
  length : ∀ max ∈ looser.maxLength, ∃ former ∈ limits.maxLength, former ≤ max

theorem Loosens.allow {steps length : Nat} (h : looser.Loosens limits)
    (ha : limits.Allow steps length) : looser.Allow steps length := by
  constructor
  · intro max hm
    obtain ⟨former, hf, hle⟩ := h.steps max hm
    exact Nat.le_trans (ha.steps_le former hf) hle
  · intro max hm
    obtain ⟨former, hf, hle⟩ := h.length max hm
    exact Nat.le_trans (ha.length_le former hf) hle

end Limits

namespace Grammar

variable {σ : Type} [WordSource σ] {g : Grammar} {limits looser : Limits} {fuel n : Nat}
  {form last : Form} {source rest : σ} {step : DerivationStep} {steps seen : List DerivationStep}
  {start : Char} {word : List Char}

theorem Allows.length_le (h : g.Allows form step) : form.length ≤ step.form.length := by
  obtain ⟨before, after, _, rfl, hf⟩ := h.replaced
  have hpos := List.length_pos_of_ne_nil h.alternative_ne_nil
  rw [hf]
  simp only [List.length_append, List.length_cons]
  omega

theorem Derives.length_le (h : g.Derives n form steps last) : form.length ≤ last.length := by
  apply h.invariant (P := fun f => form.length ≤ f.length) _ (Nat.le_refl _) last h.last_mem
  intro _ _ allowed hle
  exact Nat.le_trans hle allowed.length_le

theorem Derives.step_bounds (h : g.Derives n form steps last) : ∀ step ∈ steps,
    n < step.number ∧ step.number ≤ n + steps.length ∧ step.form.length ≤ last.length := by
  induction h with
  | done n form => exact nofun
  | next _ number more ih =>
    intro step hs
    rw [List.length_cons]
    rcases List.mem_cons.mp hs with rfl | hs
    · exact ⟨by omega, by omega, more.length_le⟩
    · obtain ⟨hlow, hhigh, hl⟩ := ih step hs
      exact ⟨by omega, by omega, hl⟩

theorem Derives.exists_last (h : g.Derives n form steps last) (hne : steps ≠ []) :
    ∃ step ∈ steps, step.number = n + steps.length ∧ step.form = last := by
  induction h with
  | done n form => exact absurd rfl hne
  | @next _ _ _ step steps _ number more ih =>
    cases steps with
    | nil =>
      cases more
      exact ⟨step, List.mem_singleton_self step, number, rfl⟩
    | cons second others =>
      obtain ⟨final, hm, hnum, hform⟩ := ih (List.cons_ne_nil _ _)
      refine ⟨final, List.mem_cons_of_mem _ hm, ?_, hform⟩
      simp only [List.length_cons] at hnum ⊢
      omega

/-- If no step was one too many, there were not too many of them. -/
theorem Derives.length_le_maxSteps (h : g.Derives 0 form steps last)
    (hs : ∀ step ∈ steps, limits.stepsReached (step.number - 1) = false) :
    ∀ max ∈ limits.maxSteps, steps.length ≤ max := by
  intro max hm
  by_cases hne : steps = []
  · simp [hne]
  · obtain ⟨final, hf, hnum, _⟩ := h.exists_last hne
    have hlt := Limits.stepsReached_eq_false_iff.mp (hs final hf) max hm
    omega

/-- Forms never get shorter, so the number of steps and the last form decide whether a derivation
stays within limits. -/
theorem Derives.admit_iff (h : g.Derives 0 form steps last) (hne : steps ≠ []) :
    limits.Admit steps ↔ limits.Allow steps.length last.length := by
  constructor
  · intro ha
    obtain ⟨final, hf, _, rfl⟩ := h.exists_last hne
    exact ⟨h.length_le_maxSteps fun step hs => (ha step hs).1,
      Limits.lengthPassed_eq_false_iff.mp (ha final hf).2⟩
  · intro ha step hs
    obtain ⟨hlow, hhigh, hl⟩ := h.step_bounds step hs
    rw [Limits.stepsReached_eq_false_iff, Limits.lengthPassed_eq_false_iff]
    constructor
    · intro max hm
      have hle := ha.steps_le max hm
      omega
    · intro max hm
      exact Nat.le_trans hl (ha.length_le max hm)

/-- A derivation with limits is completed exactly if the one without is, and keeps within them. -/
theorem expandSteps_limits_iff :
    g.expandSteps limits fuel start source = some ⟨.ok last, seen, rest⟩ ↔
      g.expandSteps .unbounded fuel start source = some ⟨.ok last, seen, rest⟩ ∧
        limits.Allow seen.length last.length := by
  rw [expandSteps_eq_ok_iff, expandSteps_eq_ok_iff]
  -- A nonterminal is not closed, so there is a last step to read both limits off.
  have ha (hr : g.Runs fuel 0 [.nonterminal start] source seen.reverse last rest)
      (hc : Form.Closed last) :
      limits.Admit seen.reverse ↔ limits.Allow seen.length last.length := by
    rw [hr.derives.admit_iff, List.length_reverse]
    intro hn
    rw [hn] at hr
    cases hr
    exact Form.not_closed_nonterminal start hc
  constructor
  · intro h
    obtain ⟨hs, hr, hc, hfuel, hadmit⟩ := h
    exact ⟨⟨hs, hr, hc, hfuel, admit_unbounded _⟩, (ha hr hc).mp hadmit⟩
  · intro h
    obtain ⟨⟨hs, hr, hc, hfuel, _⟩, hallow⟩ := h
    exact ⟨hs, hr, hc, hfuel, (ha hr hc).mpr hallow⟩

/-- Without limits, a derivation from a symbol comes after these steps to a form, with this source
left, and with enough fuel goes on from there. -/
structure Reaches (g : Grammar) (start : Char) (source : σ) (steps : List DerivationStep)
    (form : Form) (rest : σ) : Prop where
  runs : ∃ fuel, g.Runs fuel 0 [.nonterminal start] source steps form rest
  goes_on : ∃ enough, ∀ fuel ≥ enough, ∀ {β : Type} (observe : β → DerivationStep → β) (seen : β),
    g.expandFrom .unbounded observe fuel start seen source =
      g.expand .unbounded observe (fuel - steps.length) steps.length form
        (steps.foldl observe seen) rest

theorem Runs.reaches (h : g.Runs fuel 0 [.nonterminal start] source steps form rest)
    (hs : start ∈ g.nonterminals) : g.Reaches start source steps form rest := by
  refine ⟨⟨fuel, h⟩, fuel, ?_⟩
  intro more hle β observe seen
  rw [expandFrom, if_pos hs, (h.mono hle).expand_eq (admit_unbounded steps), Nat.zero_add]

/-- A derivation that is cut off was at its greatest number of steps with symbols left to rewrite,
or its last step made the form too long. -/
theorem reaches_of_limitExceeded {k length : Nat}
    (h : g.generate fuel start limits source = some (.error (.limitExceeded k length), rest)) :
    ∃ steps form, g.Reaches start source steps form rest ∧ steps.length = k ∧
      form.length = length ∧ (limits.maxSteps = some k ∧ ¬ Form.Closed form ∨
        1 ≤ k ∧ ∃ max ∈ limits.maxLength, max < length) := by
  rw [generate_eq] at h
  obtain ⟨⟨result, seen, left⟩, he, hr⟩ := Option.map_eq_some_iff.mp h
  simp only [Prod.mk.injEq] at hr
  obtain ⟨hresult, rfl⟩ := hr
  cases result with
  | ok form => cases hresult
  | error fault =>
    cases hresult
    unfold expandSteps expandFrom at he
    split at he
    · next hs =>
      obtain ⟨steps, form, hr, _, hends, hleft, _⟩ := expand_runs he
      rw [Nat.zero_add] at hends
      cases hends with
      | stopped hc reached =>
        -- None of the steps was one too many, so the limit is not only reached but met exactly.
        obtain ⟨max, hm, hle⟩ := Limits.stepsReached_eq_true_iff.mp reached
        have hge := hr.derives.length_le_maxSteps hleft max hm
        have he : max = steps.length := Nat.le_antisymm hle hge
        exact ⟨steps, form, hr.reaches hs, rfl, rfl, .inl ⟨he ▸ hm, hc⟩⟩
      | tooLong hpos passed =>
        exact ⟨steps, form, hr.reaches hs, rfl, rfl,
          .inr ⟨hpos, Limits.lengthPassed_eq_true_iff.mp passed⟩⟩
    · cases he

/-- A word is generated within limits exactly if it is generated without them, in as many steps and
with as many characters as they allow. -/
theorem generate_limits_iff :
    g.generate fuel start limits source = some (.ok word, rest) ↔
      ∃ steps, g.generate fuel start .unbounded source = some (.ok word, rest) ∧
        g.derivationSteps fuel start .unbounded source = some steps ∧
        limits.Allow steps.length word.length := by
  constructor
  · intro h
    obtain ⟨seen, he⟩ := generate_eq_ok_iff.mp h
    obtain ⟨hu, ha⟩ := expandSteps_limits_iff.mp he
    refine ⟨seen.reverse, generate_eq_ok_iff.mpr ⟨seen, hu⟩, ?_, ?_⟩
    · rw [derivationSteps_eq, hu]
      rfl
    · rwa [List.length_reverse, ← List.length_map Symbol.terminal]
  · intro h
    obtain ⟨steps, hg, hd, ha⟩ := h
    obtain ⟨seen, hu⟩ := generate_eq_ok_iff.mp hg
    rw [derivationSteps_eq, hu] at hd
    cases hd
    rw [List.length_reverse, ← List.length_map Symbol.terminal] at ha
    exact generate_eq_ok_iff.mpr ⟨seen, expandSteps_limits_iff.mpr ⟨hu, ha⟩⟩

/-- Limits only cut derivations off, and never change them. A word is generated within limits
exactly if it is generated without, from the same words, in as many steps and with as many
characters as the limits allow. Where a limit is passed, the derivation without limits comes to the
same form from the same words. So limits that are raised or removed change no word. -/
theorem limits_only_cut_off (g : Grammar) (start : Char) (limits : Limits) (fuel : Nat)
    (source rest : σ) :
    (∀ word, g.generate fuel start limits source = some (.ok word, rest) ↔
      ∃ steps, g.generate fuel start .unbounded source = some (.ok word, rest) ∧
        g.derivationSteps fuel start .unbounded source = some steps ∧
        limits.Allow steps.length word.length) ∧
    (∀ k length,
      g.generate fuel start limits source = some (.error (.limitExceeded k length), rest) →
        ∃ steps form, g.Reaches start source steps form rest ∧ steps.length = k ∧
          form.length = length ∧ (limits.maxSteps = some k ∧ ¬ Form.Closed form ∨
            1 ≤ k ∧ ∃ max ∈ limits.maxLength, max < length)) ∧
    ∀ looser word, looser.Loosens limits →
      g.generate fuel start limits source = some (.ok word, rest) →
        g.generate fuel start looser source = some (.ok word, rest) := by
  refine ⟨fun _ => generate_limits_iff, fun _ _ => reaches_of_limitExceeded, ?_⟩
  intro looser word hl h
  obtain ⟨steps, hg, hd, ha⟩ := generate_limits_iff.mp h
  exact generate_limits_iff.mpr ⟨steps, hg, hd, hl.allow ha⟩

theorem sample_limits_only_cut_off :
    sample.generate 3 'S' ⟨some 2, some 2⟩ (Generator.given [0, 0x80000000]) =
      some (.ok ['d', 'b'], .given []) ∧
    (∃ steps form,
      sample.Reaches 'S' (Generator.given [0, 0x80000000]) steps form (.given [0x80000000]) ∧
        steps.length = 1 ∧ form.length = 2) ∧
    sample.generate 3 'S' ⟨some 3, none⟩ (Generator.given [0, 0x80000000]) =
      some (.ok ['d', 'b'], .given []) := by
  have hword : sample.generate 3 'S' .unbounded (Generator.given [0, 0x80000000]) =
      some (.ok ['d', 'b'], .given []) := rfl
  have hcut : sample.generate 3 'S' ⟨some 1, none⟩ (Generator.given [0, 0x80000000]) =
      some (.error (.limitExceeded 1 2), .given [0x80000000]) := rfl
  have hwithin : sample.generate 3 'S' ⟨some 2, some 2⟩ (Generator.given [0, 0x80000000]) =
      some (.ok ['d', 'b'], .given []) :=
    ((limits_only_cut_off sample 'S' ⟨some 2, some 2⟩ 3 _ _).1 _).mpr
      ⟨_, hword, rfl, by simp, by simp⟩
  refine ⟨hwithin, ?_, ?_⟩
  · obtain ⟨steps, form, hr, hk, hl, _⟩ :=
      (limits_only_cut_off sample 'S' ⟨some 1, none⟩ 3 _ _).2.1 1 2 hcut
    exact ⟨steps, form, hr, hk, hl⟩
  · have hlooser : Limits.Loosens ⟨some 3, none⟩ ⟨some 2, some 2⟩ := ⟨by simp, by simp⟩
    exact (limits_only_cut_off sample 'S' ⟨some 2, some 2⟩ 3 _ _).2.2 _ _ hlooser hwithin

end Grammar

end CharGrammar
