import CharGrammar.Proofs.JoinedRules
import CharGrammar.Proofs.Limits

namespace CharGrammar

/-- The steps that a derivation takes under limits: none was one too many, and only the last may
have made the form too long. -/
structure Limits.Permit (limits : Limits) (steps : List DerivationStep) : Prop where
  steps_left : ∀ step ∈ steps, limits.stepsReached (step.number - 1) = false
  length_left : ∀ step ∈ steps.dropLast, limits.lengthPassed step.form.length = false

theorem Limits.Admit.permit {limits : Limits} {steps : List DerivationStep}
    (h : limits.Admit steps) : limits.Permit steps where
  steps_left step hs := (h step hs).1
  length_left step hs := (h step (List.dropLast_subset steps hs)).2

namespace Form

theorem nonterminals_append {form form' : Form} :
    nonterminals (form ++ form') = nonterminals form ++ nonterminals form' :=
  List.filterMap_append

theorem length_nonterminals_le {form : Form} : form.nonterminals.length ≤ form.length :=
  List.length_filterMap_le _ _

/-- Any form but a single nonterminal has symbols worth two steps. -/
theorem two_le_of_ne {form : Form} (hne : form ≠ []) (hu : ∀ x, form ≠ [.nonterminal x]) :
    form.nonterminals.length + 2 ≤ 2 * form.length := by
  cases form with
  | nil => exact absurd rfl hne
  | cons s rest =>
    cases rest with
    | nil =>
      cases s with
      | terminal c => simp [nonterminals]
      | nonterminal x => exact absurd rfl (hu x)
    | cons t others =>
      have hle : (nonterminals (s :: t :: others)).length ≤ (s :: t :: others).length :=
        length_nonterminals_le
      simp only [List.length_cons] at hle ⊢
      omega

end Form

namespace Grammar

/-- No alternative is a single nonterminal. -/
def Unitless (g : Grammar) : Prop := ∀ p ∈ g.productions, ∀ x, p.2 ≠ [.nonterminal x]

variable {σ : Type} [WordSource σ]

/-- From a form after `n` steps, every choice that a derivation comes to returns. -/
def ChoicesReturn (g : Grammar) (n : Nat) (form : Form) (source : σ) : Prop :=
  ∀ fuel steps last rest, g.Runs fuel n form source steps last rest →
    ∀ before x after first others, last.leftmost? = some (before, x, after) →
      g.alternatives? x = some (first :: others) →
        ∃ draws alternative left, choose first others draws rest = some (alternative, left)

/-- With enough fuel a derivation is answered, however it is asked for, and it never takes more
steps than the bound. -/
structure StopsWithin (g : Grammar) (limits : Limits) (start : Char) (source : σ) (bound : Nat) :
    Prop where
  answered : ∃ enough, ∀ fuel ≥ enough, (g.derivationSteps fuel start limits source).isSome ∧
    (g.generate fuel start limits source).isSome ∧ (g.derive fuel start limits source).isSome
  steps_le : ∀ fuel steps, g.derivationSteps fuel start limits source = some steps →
    steps.length ≤ bound

variable {β : Type} {g : Grammar} {limits : Limits} {observe : β → DerivationStep → β}
  {fuel n bound : Nat} {form last : Form} {seen : β} {source middle rest : σ}
  {step : DerivationStep} {steps : List DerivationStep} {start : Char}

section Bounds

theorem Allows.not_unit (hu : g.Unitless) (h : g.Allows form step) :
    ∀ x, step.alternative ≠ [.nonterminal x] := by
  obtain ⟨body, hb, hm⟩ := h.chosen
  exact hu _ (mem_productions_iff.mpr ⟨body, hb, hm⟩)

/-- A step gains at least one more than it costs. -/
theorem Allows.pays (hu : g.Unitless) (h : g.Allows form step) {k : Nat}
    (hk : k + form.nonterminals.length + 1 ≤ 2 * form.length) :
    k + 1 + step.form.nonterminals.length + 1 ≤ 2 * step.form.length := by
  have htwo := Form.two_le_of_ne h.alternative_ne_nil (h.not_unit hu)
  obtain ⟨before, after, _, rfl, hf⟩ := h.replaced
  have hx : Form.nonterminals (.nonterminal step.nonterminal :: after) =
      step.nonterminal :: Form.nonterminals after := rfl
  rw [hf]
  simp only [Form.nonterminals_append, hx, List.length_append, List.length_cons] at hk htwo ⊢
  omega

theorem Derives.pays (hu : g.Unitless) (h : g.Derives n form steps last) {k : Nat}
    (hk : k + form.nonterminals.length + 1 ≤ 2 * form.length) :
    k + steps.length + last.nonterminals.length + 1 ≤ 2 * last.length := by
  induction h generalizing k with
  | done n form => exact hk
  | next allowed _ _ ih =>
    have hi := ih (allowed.pays hu hk)
    rw [List.length_cons]
    omega

theorem Derives.pays_from_start (hu : g.Unitless)
    (h : g.Derives 0 [.nonterminal start] steps last) :
    steps.length + last.nonterminals.length + 1 ≤ 2 * last.length := by
  have hp := h.pays hu (k := 0) (Nat.le_refl 2)
  rwa [Nat.zero_add] at hp

/-- A derivation up to one of its forms. -/
theorem Derives.take {i : Nat} {f : Form} (h : g.Derives n form steps last)
    (hi : (formsOf form steps)[i]? = some f) :
    g.Derives n form (steps.take i) f ∧ (steps.take i).length = i := by
  induction h generalizing i with
  | done n form =>
    cases i with
    | zero =>
      cases hi
      exact ⟨.done n _, rfl⟩
    | succ i => cases hi
  | next allowed number _ ih =>
    cases i with
    | zero =>
      cases hi
      exact ⟨.done _ _, rfl⟩
    | succ i =>
      obtain ⟨hd, hl⟩ := ih hi
      exact ⟨.next allowed number hd, congrArg (· + 1) hl⟩

/-- The last step of a derivation follows on a derivation by the steps before. -/
theorem Derives.before_last {final : DerivationStep}
    (h : g.Derives n form (steps ++ [final]) last) :
    ∃ f, g.Derives n form steps f ∧ g.Allows f final := by
  induction steps generalizing n form with
  | nil =>
    cases h with
    | next allowed _ _ => exact ⟨form, .done n form, allowed⟩
  | cons step steps ih =>
    cases h with
    | next allowed number more =>
      obtain ⟨f, hd, hf⟩ := ih more
      exact ⟨f, .next allowed number hd, hf⟩

/-- Under a limit on the length alone, the form before the last step is within it and has a
nonterminal. -/
theorem Derives.length_le_of_maxLength (hu : g.Unitless) {max : Nat}
    (h : g.Derives 0 [.nonterminal start] steps last)
    (hp : Limits.Permit ⟨none, some max⟩ steps) : steps.length ≤ Nat.max 1 (2 * max - 1) := by
  rcases List.eq_nil_or_concat' steps with rfl | ⟨front, final, rfl⟩
  · exact Nat.zero_le _
  · by_cases hfront : front = []
    · subst hfront
      exact Nat.le_max_left _ _
    · obtain ⟨f, hd, hallowed⟩ := h.before_last
      obtain ⟨step, hs, _, rfl⟩ := hd.exists_last hfront
      have hlength : step.form.length ≤ max := by
        have hpassed := hp.length_left step (by rwa [List.dropLast_concat])
        exact Limits.lengthPassed_eq_false_iff.mp hpassed max rfl
      have hopen : 0 < (Form.nonterminals step.form).length :=
        List.length_pos_of_mem (Form.mem_nonterminals_iff.mpr hallowed.nonterminal_mem_form)
      have hpays := hd.pays_from_start hu
      rw [List.length_append, List.length_singleton]
      exact Nat.le_trans (by omega) (Nat.le_max_right _ _)

end Bounds

section Answers

/-- The steps of a derivation that is answered are those that its limits permit. -/
theorem expand_permits {e : Expansion β σ}
    (h : g.expand limits observe fuel n form seen source = some e) :
    ∃ steps last, g.Runs fuel n form source steps last e.source ∧
      e.observed = steps.foldl observe seen ∧ limits.Permit steps := by
  induction fuel generalizing n form seen source with
  | zero => cases h
  | succ fuel ih =>
    rcases expand_cases h with ⟨_, ho, rfl⟩ | ⟨step, middle, hm, hn, hs, hafter⟩
    · exact ⟨[], form, .done _ n form _, ho, nofun, nofun⟩
    · have hreached : limits.stepsReached (step.number - 1) = false := by
        rw [hn, Nat.add_sub_cancel, hs]
      rcases hafter with ⟨_, rfl⟩ | ⟨hp, hmore⟩
      · exact ⟨[step], step.form, .next hm hn (.done _ _ _ _), rfl, by simpa using hreached, nofun⟩
      · obtain ⟨steps, last, hr, ho, hpermit⟩ := ih hmore
        refine ⟨step :: steps, last, .next hm hn hr, ho,
          List.forall_mem_cons.mpr ⟨hreached, hpermit.steps_left⟩, ?_⟩
        cases steps with
        | nil => exact nofun
        | cons second others =>
          rw [List.dropLast_cons_cons]
          exact List.forall_mem_cons.mpr ⟨hp, hpermit.length_left⟩

theorem ChoicesReturn.next (h : g.ChoicesReturn n form source)
    (hm : g.Moves (fuel + 1) form source step middle) (hn : step.number = n + 1) :
    g.ChoicesReturn (n + 1) step.form middle := by
  intro more steps last rest hr
  have hmoves := hm.mono (Nat.succ_le_succ (Nat.le_max_left fuel more))
  exact h _ _ _ _ (.next hmoves hn (hr.mono (Nat.le_max_right fuel more)))

/-- A derivation whose choices return is answered at once, or takes a step once it has fuel for the
draws. -/
theorem ends_or_moves (limits : Limits) (observe : β → DerivationStep → β)
    (hc : g.ChoicesReturn n form source) :
    (∀ fuel seen, (g.expand limits observe (fuel + 1) n form seen source).isSome) ∨
    ∃ fuel step middle, g.Moves (fuel + 1) form source step middle ∧ step.number = n + 1 ∧
      limits.stepsReached n = false := by
  cases hl : form.leftmost? with
  | none =>
    refine .inl fun fuel seen => ?_
    rw [expand_closed (Form.closed_iff_leftmost?.mpr hl)]
    rfl
  | some split =>
    obtain ⟨before, x, after⟩ := split
    obtain ⟨rfl, hbefore⟩ := Form.eq_of_leftmost? hl
    cases hs : limits.stepsReached n with
    | true =>
      refine .inl fun fuel seen => ?_
      rw [expand_stopped ?_ hs]
      · rfl
      · rw [Form.closed_iff_leftmost?, hl]
        exact nofun
    | false =>
      by_cases hx : ∃ first others, g.alternatives? x = some (first :: others)
      · obtain ⟨first, others, hx⟩ := hx
        obtain ⟨draws, alternative, middle, hd⟩ :=
          hc 0 [] _ _ (.done 0 n _ source) _ _ _ _ _ hl hx
        exact .inr ⟨draws, ⟨n + 1, x, alternative, before ++ alternative ++ after⟩, middle,
          ⟨⟨before, after, hl, rfl⟩, first, others, hx, choose_mono hd (Nat.le_succ draws)⟩,
          rfl, rfl⟩
      · have hnone := alternatives?_eq_none fun first others he => hx ⟨first, others, he⟩
        refine .inl fun fuel seen => ?_
        rw [expand_missing hbefore hnone hs]
        rfl

/-- If the limits bound the derivations within them, then one whose choices return is answered with
enough fuel. -/
theorem exists_fuel (observe : β → DerivationStep → β) (hc : g.ChoicesReturn n form source)
    (hb : ∀ steps last, g.Derives n form steps last → limits.Admit steps →
      steps.length < bound) :
    ∃ enough, ∀ fuel ≥ enough, ∀ seen,
      (g.expand limits observe fuel n form seen source).isSome := by
  -- The induction is on the steps that may still be taken. The fuel bounds the draws of each choice
  -- as well, so it has to last for the next choice and for what comes after.
  induction bound generalizing n form source with
  | zero => exact absurd (hb [] form (.done n form) nofun) (Nat.lt_irrefl 0)
  | succ bound ih =>
    rcases ends_or_moves limits observe hc with hends | ⟨draws, step, middle, hm, hn, hs⟩
    · refine ⟨1, ?_⟩
      intro fuel hle seen
      obtain ⟨more, rfl⟩ := Nat.exists_eq_add_of_le' hle
      exact hends more seen
    · cases hp : limits.lengthPassed step.form.length with
      | true =>
        refine ⟨draws + 1, ?_⟩
        intro fuel hle seen
        obtain ⟨more, rfl⟩ := Nat.exists_eq_add_of_le' hle
        rw [← Nat.add_assoc, (hm.mono (by omega)).expand_eq hn, hs, hp]
        rfl
      | false =>
        have hmore : ∀ steps last, g.Derives (n + 1) step.form steps last → limits.Admit steps →
            steps.length < bound := by
          intro steps last hd ha
          have hstep : limits.stepsReached (step.number - 1) = false := by
            rw [hn, Nat.add_sub_cancel, hs]
          exact Nat.lt_of_succ_lt_succ (hb (step :: steps) last (.next hm.allows hn hd)
            (List.forall_mem_cons.mpr ⟨⟨hstep, hp⟩, ha⟩))
        obtain ⟨enough, henough⟩ := ih (hc.next hm hn) hmore
        refine ⟨draws + enough + 1, ?_⟩
        intro fuel hle seen
        obtain ⟨more, rfl⟩ := Nat.exists_eq_add_of_le' hle
        rw [← Nat.add_assoc, (hm.mono (by omega)).expand_eq hn, hs, hp,
          if_neg Bool.false_ne_true, if_neg Bool.false_ne_true]
        exact henough _ (by omega) _

/-- The steps of a derivation that is answered are those of a leftmost derivation that the limits
permit, from a symbol that is no nonterminal none at all. -/
theorem derives_of_derivationSteps
    (h : g.derivationSteps fuel start limits source = some steps) :
    ∃ last, g.Derives 0 [.nonterminal start] steps last ∧ limits.Permit steps := by
  rw [derivationSteps_eq] at h
  obtain ⟨e, he, rfl⟩ := Option.map_eq_some_iff.mp h
  unfold expandSteps expandFrom at he
  split at he
  · obtain ⟨steps, last, hr, ho, hp⟩ := expand_permits he
    rw [List.foldl_flip_cons_eq_append', List.append_nil] at ho
    rw [ho, List.reverse_reverse]
    exact ⟨last, hr.derives, hp⟩
  · cases he
    exact ⟨_, .done 0 _, nofun, nofun⟩

theorem StopsWithin.of_permit (hc : g.ChoicesReturn 0 [.nonterminal start] source)
    (hb : ∀ steps last, g.Derives 0 [.nonterminal start] steps last → limits.Permit steps →
      steps.length ≤ bound) : g.StopsWithin limits start source bound := by
  have hadmit : ∀ steps last, g.Derives 0 [.nonterminal start] steps last →
      limits.Admit steps → steps.length < bound + 1 :=
    fun steps last hd ha => Nat.lt_succ_of_le (hb steps last hd ha.permit)
  constructor
  · obtain ⟨enough, h⟩ := exists_fuel (fun (steps : List DerivationStep) step => step :: steps)
      hc hadmit
    refine ⟨enough, ?_⟩
    intro fuel hle
    have he : (g.expandSteps limits fuel start source).isSome := by
      rw [expandSteps, expandFrom]
      split
      · exact h fuel hle []
      · rfl
    simp only [derivationSteps_eq, generate_eq, derive_eq, Option.isSome_map, he, and_self]
  · intro fuel steps h
    obtain ⟨last, hd, hp⟩ := derives_of_derivationSteps h
    exact hb steps last hd hp

end Answers

/-- A nonterminal that is rewritten to itself alone is never done with, unless the steps are
limited. -/
theorem expand_unit {x : Char} (hx : g.alternatives? x = some [[.nonterminal x]])
    (hs : limits.maxSteps = none) (hl : limits.lengthPassed 1 = false) :
    g.expand limits observe fuel n [.nonterminal x] seen source = none := by
  induction fuel generalizing n seen source with
  | zero => rfl
  | succ fuel ih =>
    simp only [expand, Form.leftmost?, Limits.stepsReached, hs, Option.any_none,
      Bool.false_eq_true, if_false, hx]
    split
    · rfl
    · next alternative middle hd =>
      cases List.mem_singleton.mp (mem_of_choose hd)
      simp only [List.nil_append, List.append_nil, List.length_singleton, hl, Bool.false_eq_true,
        if_false, ih]

section Sources

variable {P : σ → Prop}

theorem Runs.source_of (hnext : ∀ source, P source → P (WordSource.next source).2)
    (h : g.Runs fuel n form source steps last rest) (hp : P source) : P rest := by
  induction h with
  | done => exact hp
  | next moves _ _ ih =>
    obtain ⟨_, _, _, hd⟩ := moves.drawn
    exact ih (source_of_choose hnext hd hp)

/-- If a source never gets to where a choice does not return, then all choices from it return. -/
theorem choicesReturn_of_invariant (hnext : ∀ source, P source → P (WordSource.next source).2)
    (hchoose : ∀ source, P source → ∀ (first : Alternative) (others : Body),
      ∃ draws alternative left, choose first others draws source = some (alternative, left))
    (hp : P source) : g.ChoicesReturn n form source := by
  intro fuel steps last rest hr _ _ _ first others _ _
  exact hchoose rest (hr.source_of hnext hp) first others

/-- The zeros that follow given words are fair for any choice. -/
theorem exists_choose_given {α : Type} (first : α) (others : List α) (words : List UInt32) :
    ∃ draws a left, choose first others draws (Generator.given words) = some (a, left) := by
  induction words with
  | nil => exact ⟨1, _, _, if_pos Choice.fair_zero⟩
  | cons word words ih =>
    by_cases hf : Choice.Fair (others.length + 1) word
    · exact ⟨1, _, _, if_pos hf⟩
    · obtain ⟨draws, a, left, hd⟩ := ih
      exact ⟨draws + 1, a, left, (if_neg hf).trans hd⟩

theorem choicesReturn_given (words : List UInt32) :
    g.ChoicesReturn n form (Generator.given words) := by
  refine choicesReturn_of_invariant (P := fun source => ∃ words, source = .given words)
    ?_ ?_ ⟨words, rfl⟩
  · rintro _ ⟨words, rfl⟩
    cases words with
    | nil => exact ⟨[], rfl⟩
    | cons word words => exact ⟨words, rfl⟩
  · rintro _ ⟨words, rfl⟩ first others
    exact exists_choose_given first others words

end Sources

/-- A derivation whose choices return is stopped by a limit on its steps after as many of them. A
limit on the length alone stops it if no alternative is a single nonterminal, since then the symbols
of each form pay for the steps up to it, two for a terminal and one for a nonterminal. -/
theorem limits_stop (g : Grammar) (start : Char) (source : σ)
    (hc : g.ChoicesReturn 0 [.nonterminal start] source) :
    (∀ limits max, limits.maxSteps = some max → g.StopsWithin limits start source max) ∧
    (g.Unitless →
      (∀ max, g.StopsWithin ⟨none, some max⟩ start source (Nat.max 1 (2 * max - 1))) ∧
      (∀ steps form, g.Derives 0 [.nonterminal start] steps form →
        steps.length + form.nonterminals.length + 1 ≤ 2 * form.length) ∧
      ∀ fuel limits steps, g.derivationSteps fuel start limits source = some steps →
        ∀ (k : Nat) form, (formsOf [.nonterminal start] steps)[k]? = some form →
          k + form.nonterminals.length + 1 ≤ 2 * form.length) := by
  constructor
  · intro limits max hmax
    refine .of_permit hc ?_
    intro steps last hd hp
    exact hd.length_le_maxSteps hp.steps_left max hmax
  · intro hu
    refine ⟨?_, fun steps form hd => hd.pays_from_start hu, ?_⟩
    · intro max
      exact .of_permit hc fun steps last hd hp => hd.length_le_of_maxLength hu hp
    · intro fuel limits steps h k form hk
      obtain ⟨last, hd, _⟩ := derives_of_derivationSteps h
      obtain ⟨htake, hl⟩ := hd.take hk
      have hpays := htake.pays_from_start hu
      rwa [hl] at hpays

theorem sample_unitless : sample.Unitless := by
  have hfirst : ∀ p ∈ sample.productions, ∀ s ∈ p.2.head?, s.isNonterminal = false := by decide
  intro p hp x hx
  have hn := hfirst p hp (.nonterminal x) (by rw [hx]; rfl)
  cases hn

/-- Given zeros alone, the sample grammar would never be done with `B` and `C`. -/
theorem sample_stops :
    sample.ChoicesReturn 0 [.nonterminal 'S'] (Generator.given []) ∧ sample.Unitless ∧
      sample.StopsWithin ⟨some 5, none⟩ 'S' (Generator.given []) 5 ∧
      sample.StopsWithin ⟨none, some 4⟩ 'S' (Generator.given []) 7 ∧
      ∀ steps form, sample.Derives 0 [.nonterminal 'S'] steps form →
        steps.length + form.nonterminals.length + 1 ≤ 2 * form.length := by
  have hc : sample.ChoicesReturn 0 [.nonterminal 'S'] (Generator.given []) :=
    choicesReturn_given []
  obtain ⟨hsteps, hlength⟩ := limits_stop sample 'S' (Generator.given []) hc
  obtain ⟨hmax, hpays, _⟩ := hlength sample_unitless
  exact ⟨hc, sample_unitless, hsteps _ 5 rfl, hmax 4, hpays⟩

end Grammar

end CharGrammar
