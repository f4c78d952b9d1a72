import CharGrammar.Proofs.Runs
import CharGrammar.Words.Generator

namespace CharGrammar

namespace Grammar

variable {β γ σ : Type} [WordSource σ] {g : Grammar} {limits : Limits}
  {observe : β → DerivationStep → β} {fuel n : Nat} {form last : Form} {seen : β}
  {source source' : σ} {e : Expansion β σ} {step : DerivationStep} {steps : List DerivationStep}
  {start : Char}

/-- A random derivation is a leftmost derivation, seen step by step. -/
theorem expand_derives (h : g.expand limits observe fuel n form seen source = some e) :
    ∃ steps last, g.Derives n form steps last ∧ e.observed = steps.foldl observe seen ∧
      g.Ends limits (n + steps.length) last e.result := by
  obtain ⟨steps, last, hr, ho, hends, _⟩ := expand_runs h
  exact ⟨steps, last, hr.derives, ho, hends⟩

/-- An observer that can be worked out from another sees what is worked out, and nothing else
differs. -/
theorem expand_map {observe' : γ → DerivationStep → γ} {f : β → γ}
    (hf : ∀ b step, f (observe b step) = observe' (f b) step) :
    g.expand limits observe' fuel n form (f seen) source =
      (g.expand limits observe fuel n form seen source).map fun e =>
        ⟨e.result, f e.observed, e.source⟩ := by
  induction fuel generalizing n form seen source with
  | zero => rfl
  | succ fuel ih =>
    unfold expand
    cases form.leftmost? with
    | none => rfl
    | some split =>
      obtain ⟨before, x, after⟩ := split
      dsimp only
      split
      · rfl
      · split
        · next first rest hb =>
          cases choose first rest (fuel + 1) source with
          | none => rfl
          | some chosen =>
            dsimp only
            split
            · simp [hf]
            · rw [← hf]
              exact ih
        · rfl

/-- Few enough alternatives for each to be chosen with one word. -/
def Choosable (g : Grammar) : Prop :=
  ∀ x body, g.alternatives? x = some body → body.length < UInt32.size

/-- One step with a word that chooses its alternative. -/
theorem exists_word_moves (hg : g.Choosable) (h : g.Allows form step) :
    ∃ word, ∀ {σ : Type} [WordSource σ] (fuel : Nat) (source middle : σ),
      WordSource.next source = (word, middle) → g.Moves (fuel + 1) form source step middle := by
  obtain ⟨body, hb, hm⟩ := h.chosen
  obtain ⟨before, after, hbefore, rfl, hnext⟩ := h.replaced
  cases body with
  | nil => cases hm
  | cons first rest =>
    obtain ⟨word, hword⟩ := exists_word_choose (hg _ _ hb) hm
    refine ⟨word, ?_⟩
    intro σ _ fuel source middle hs
    exact ⟨⟨before, after, Form.leftmost?_split hbefore, hnext⟩, first, rest, hb,
      hword fuel source middle hs⟩

/-- Every leftmost derivation is a run for some words, one for each step. -/
theorem Derives.exists_runs (hg : g.Choosable) (h : g.Derives n form steps last) :
    ∃ words : List UInt32, words.length = steps.length ∧
      ∀ {σ : Type} [WordSource σ] (fuel : Nat) (source rest : σ), steps.length ≤ fuel →
        Draws source words rest → g.Runs fuel n form source steps last rest := by
  -- The word of a step depends on that step only, so those of the others come by induction.
  induction h with
  | done n form =>
    refine ⟨[], rfl, ?_⟩
    intro σ _ fuel source rest _ hd
    cases hd
    exact .done fuel n form _
  | next allowed number _ ih =>
    obtain ⟨word, hword⟩ := exists_word_moves hg allowed
    obtain ⟨words, hl, hwords⟩ := ih
    refine ⟨word :: words, by simp [hl], ?_⟩
    intro σ _ fuel source rest hfuel hd
    cases hd with
    | some first more =>
      cases fuel with
      | zero => cases hfuel
      | succ fuel =>
        exact .next (hword fuel source _ first) number
          (hwords fuel _ rest (Nat.le_of_succ_le_succ hfuel) more)

theorem admit_unbounded (steps : List DerivationStep) : Limits.unbounded.Admit steps :=
  fun _ _ => ⟨rfl, rfl⟩

/-- Every leftmost derivation of a closed form is a random one for some words, one for each
step. -/
theorem Derives.exists_words (hg : g.Choosable) (h : g.Derives n form steps last)
    (hc : Form.Closed last) :
    ∃ words : List UInt32, words.length = steps.length ∧
      ∀ {β σ : Type} [WordSource σ] (observe : β → DerivationStep → β) (seen : β) (fuel : Nat)
        (source rest : σ), steps.length < fuel → Draws source words rest →
        g.expand .unbounded observe fuel n form seen source =
          some ⟨.ok last, steps.foldl observe seen, rest⟩ := by
  obtain ⟨words, hl, hwords⟩ := h.exists_runs hg
  refine ⟨words, hl, ?_⟩
  intro β σ _ observe seen fuel source rest hfuel hd
  have hr := hwords fuel source rest (Nat.le_of_lt hfuel) hd
  exact expand_eq_ok_iff.mpr ⟨steps, hr, hc, hfuel, admit_unbounded steps, rfl⟩

/-- A derivation with its steps, the last one first. -/
def expandSteps (g : Grammar) (limits : Limits) (fuel : Nat) (start : Char) (source : σ) :
    Option (Expansion (List DerivationStep) σ) :=
  g.expandFrom limits (fun steps step => step :: steps) fuel start [] source

theorem derivationSteps_eq :
    g.derivationSteps fuel start limits source =
      (g.expandSteps limits fuel start source).map fun e => e.observed.reverse := rfl

theorem expandFrom_map {observe' : γ → DerivationStep → γ} {f : β → γ}
    (hf : ∀ b step, f (observe b step) = observe' (f b) step) :
    g.expandFrom limits observe' fuel start (f seen) source =
      (g.expandFrom limits observe fuel start seen source).map fun e =>
        ⟨e.result, f e.observed, e.source⟩ := by
  unfold expandFrom
  split
  · exact expand_map hf
  · rfl

/-- Whatever is observed of a derivation is gathered from its steps. -/
theorem expandFrom_eq :
    g.expandFrom limits observe fuel start seen source =
      (g.expandSteps limits fuel start source).map fun e =>
        ⟨e.result, e.observed.reverse.foldl observe seen, e.source⟩ := by
  let gather (steps : List DerivationStep) : β := steps.reverse.foldl observe seen
  have hg : ∀ steps step, gather (step :: steps) = observe (gather steps) step := by
    intro steps step
    simp [gather]
  have hs : gather [] = seen := rfl
  rw [← hs, expandSteps]
  exact expandFrom_map hg

theorem generate_eq :
    g.generate fuel start limits source =
      (g.expandSteps limits fuel start source).map fun e =>
        (e.result.map Form.chars, e.source) := by
  rw [generate, expandFrom_eq, Option.map_map]
  rfl

theorem derive_eq :
    g.derive fuel start limits source =
      (g.expandSteps limits fuel start source).map fun e =>
        (e.result.map fun _ => ⟨formsOf [.nonterminal start] e.observed.reverse⟩, e.source) := by
  rw [derive, expandFrom_eq, Option.map_map]
  congr 1
  funext e
  simp [formsOf]

/-- From a nonterminal the steps are those of a leftmost derivation. -/
theorem expandSteps_derives {e : Expansion (List DerivationStep) σ}
    (h : g.expandSteps limits fuel start source = some e) (hs : start ∈ g.nonterminals) :
    ∃ last, g.Derives 0 [.nonterminal start] e.observed.reverse last ∧
      g.Ends limits e.observed.length last e.result := by
  unfold expandSteps expandFrom at h
  rw [if_pos hs] at h
  obtain ⟨steps, last, hd, ho, hends⟩ := expand_derives h
  have hr : e.observed = steps.reverse := by
    rw [ho, List.foldl_flip_cons_eq_append', List.append_nil]
  rw [hr, List.reverse_reverse, List.length_reverse]
  exact ⟨last, hd, by simpa using hends⟩

theorem start_mem_of_expandSteps {e : Expansion (List DerivationStep) σ}
    (h : g.expandSteps limits fuel start source = some e) (hok : e.result = .ok form) :
    start ∈ g.nonterminals := by
  apply Decidable.byContradiction
  intro hs
  unfold expandSteps expandFrom at h
  rw [if_neg hs] at h
  cases h
  cases hok

/-- The steps of a completed derivation are those of a run within its limits. -/
theorem expandSteps_eq_ok_iff {taken : List DerivationStep} :
    g.expandSteps limits fuel start source = some ⟨.ok last, taken, source'⟩ ↔
      start ∈ g.nonterminals ∧
        g.Runs fuel 0 [.nonterminal start] source taken.reverse last source' ∧
        Form.Closed last ∧ taken.length < fuel ∧ limits.Admit taken.reverse := by
  unfold expandSteps expandFrom
  by_cases hs : start ∈ g.nonterminals
  · rw [if_pos hs, expand_eq_ok_iff]
    constructor
    · intro h
      obtain ⟨steps, hr, hc, hfuel, ha, htaken⟩ := h
      rw [List.foldl_flip_cons_eq_append', List.append_nil] at htaken
      subst htaken
      rw [List.reverse_reverse, List.length_reverse]
      exact ⟨hs, hr, hc, hfuel, ha⟩
    · intro h
      obtain ⟨_, hr, hc, hfuel, ha⟩ := h
      refine ⟨taken.reverse, hr, hc, by rwa [List.length_reverse], ha, ?_⟩
      rw [List.foldl_flip_cons_eq_append', List.append_nil, List.reverse_reverse]
  · rw [if_neg hs]
    refine ⟨nofun, ?_⟩
    intro h
    exact absurd h.1 hs

theorem generate_eq_ok_iff {word : List Char} :
    g.generate fuel start limits source = some (.ok word, source') ↔
      ∃ taken, g.expandSteps limits fuel start source =
        some ⟨.ok (word.map .terminal), taken, source'⟩ := by
  rw [generate_eq, Option.map_eq_some_iff]
  constructor
  · intro h
    obtain ⟨⟨result, taken, left⟩, he, hw⟩ := h
    simp only [Prod.mk.injEq] at hw
    obtain ⟨hword, rfl⟩ := hw
    cases result with
    | error fault => cases hword
    | ok form =>
      cases hword
      have hc := (expandSteps_eq_ok_iff.mp he).2.2.1
      rw [← Form.eq_terminals_of_closed hc]
      exact ⟨taken, he⟩
  · intro h
    obtain ⟨taken, he⟩ := h
    exact ⟨_, he, by simp [Except.map, Form.chars_terminals]⟩

omit [WordSource σ] in
/-- Whatever is made of a completed derivation, a failed one is told by its error alone. -/
theorem map_eq_error_iff {α : Type} {f : Expansion β σ → Form → α} {x : Option (Expansion β σ)}
    {error : DerivationError} :
    x.map (fun e => (e.result.map (f e), e.source)) = some (.error error, source') ↔
      ∃ seen, x = some ⟨.error error, seen, source'⟩ := by
  rw [Option.map_eq_some_iff]
  constructor
  · intro h
    obtain ⟨⟨result, seen, left⟩, he, hr⟩ := h
    cases result with
    | ok form => cases hr
    | error fault =>
      cases hr
      exact ⟨seen, he⟩
  · intro h
    obtain ⟨seen, he⟩ := h
    exact ⟨_, he, rfl⟩

theorem generate_eq_error_iff {error : DerivationError} :
    g.generate fuel start limits source = some (.error error, source') ↔
      ∃ taken, g.expandSteps limits fuel start source = some ⟨.error error, taken, source'⟩ := by
  rw [generate_eq]
  exact map_eq_error_iff

theorem derive_eq_error_iff {error : DerivationError} :
    g.derive fuel start limits source = some (.error error, source') ↔
      ∃ taken, g.expandSteps limits fuel start source = some ⟨.error error, taken, source'⟩ := by
  rw [derive_eq]
  exact map_eq_error_iff

/-- A derivation that is returned has the forms of the steps that were taken. -/
theorem derive_eq_ok_iff {d : Derivation} :
    g.derive fuel start limits source = some (.ok d, source') ↔
      ∃ taken last, g.expandSteps limits fuel start source = some ⟨.ok last, taken, source'⟩ ∧
        d = ⟨formsOf [.nonterminal start] taken.reverse⟩ := by
  rw [derive_eq, Option.map_eq_some_iff]
  constructor
  · intro h
    obtain ⟨⟨result, taken, left⟩, he, hd⟩ := h
    cases result with
    | error fault => cases hd
    | ok last =>
      cases hd
      exact ⟨taken, last, he, rfl⟩
  · intro h
    obtain ⟨taken, last, he, rfl⟩ := h
    exact ⟨_, he, rfl⟩

/-- A complete leftmost derivation from a nonterminal. -/
structure Complete (g : Grammar) (start : Char) (d : Derivation) : Prop where
  start_mem : start ∈ g.nonterminals
  first : d.forms.head? = some [.nonterminal start]
  rewrites : d.forms.IsChain g.Rewrites
  unfinished : ∀ form ∈ d.forms.dropLast, ∃ s ∈ form, s.isNonterminal = true
  last : d.forms.getLast? = some (d.result.map .terminal)
  declared : ∀ form ∈ d.forms, ∀ s ∈ form, g.Declares s
  result_ne_nil : d.result ≠ []
  result_terminal : ∀ c ∈ d.result, c ∈ g.terminals

/-- The forms of a derivation spell what the last of them does. -/
theorem Derives.result_eq (h : g.Derives n form steps last) :
    (Derivation.mk (formsOf form steps)).result = last.chars := by
  simp [Derivation.result, h.getLast?]

theorem Derives.complete (h : g.Derives n [.nonterminal start] steps last)
    (hc : Form.Closed last) (hs : start ∈ g.nonterminals) :
    g.Complete start ⟨formsOf [.nonterminal start] steps⟩ := by
  have hresult := h.result_eq
  have hterminals := Form.eq_terminals_of_closed hc
  have hdeclared := h.declared (by
    intro s hm
    cases List.mem_singleton.mp hm
    exact hs)
  refine ⟨hs, rfl, h.chain, ?_, ?_, hdeclared, ?_, ?_⟩
  · intro f hf
    have hn := h.not_closed f hf
    simpa [Form.Closed] using hn
  · rw [hresult, ← hterminals]
    exact h.getLast?
  · rw [hresult]
    intro he
    rw [he] at hterminals
    exact h.last_ne_nil (by simp) hterminals
  · intro c hm
    rw [hresult] at hm
    apply hdeclared last h.last_mem (.terminal c)
    rw [hterminals]
    exact List.mem_map.mpr ⟨c, hm, rfl⟩

/-- A derivation that is returned is complete, and has as many steps as were taken. -/
theorem derive_complete {d : Derivation}
    (h : g.derive fuel start limits source = some (.ok d, source')) :
    g.Complete start d ∧
      ∃ steps, g.derivationSteps fuel start limits source = some steps ∧
        d.forms = formsOf [.nonterminal start] steps ∧ d.steps = steps.length := by
  rw [derive_eq] at h
  obtain ⟨e, he, hd⟩ := Option.map_eq_some_iff.mp h
  simp only [Prod.mk.injEq] at hd
  cases hr : e.result with
  | error fault =>
    rw [hr] at hd
    cases hd.1
  | ok form =>
    rw [hr] at hd
    cases hd.1
    have hs := start_mem_of_expandSteps he hr
    obtain ⟨last, hderives, hends⟩ := expandSteps_derives he hs
    rw [hr] at hends
    cases hends with
    | closed hc =>
      refine ⟨hderives.complete hc hs, e.observed.reverse, ?_, rfl, ?_⟩
      · rw [derivationSteps_eq, he]
        rfl
      · simp [Derivation.steps, formsOf]

theorem sample_derivation_complete :
    sample.Complete 'S' ⟨[[.nonterminal 'S'], [.terminal 'd', .nonterminal 'A'],
      [.terminal 'd', .terminal 'b']]⟩ := by
  have h : sample.derive 3 'S' .unbounded (Generator.given [0, 0x80000000]) =
      some (.ok ⟨[[.nonterminal 'S'], [.terminal 'd', .nonterminal 'A'],
        [.terminal 'd', .terminal 'b']]⟩, .given []) := rfl
  exact (derive_complete h).1

/-- Nothing that a grammar allows is out of reach: every leftmost derivation of a form without
nonterminals is returned for some words, one for each step, that are drawn exactly. -/
theorem exists_words_derive {d : Derivation} (hg : g.Choosable)
    (hfirst : d.forms.head? = some [.nonterminal start]) (hrewrites : d.forms.IsChain g.Rewrites)
    (hlast : ∀ last ∈ d.forms.getLast?, Form.Closed last) :
    ∃ words : List UInt32, words.length = d.steps ∧
      ∀ {σ : Type} [WordSource σ] (fuel : Nat) (source rest : σ), d.steps < fuel →
        Draws source words rest →
          g.derive fuel start .unbounded source = some (.ok d, rest) := by
  obtain ⟨forms⟩ := d
  obtain ⟨forms, rfl⟩ := List.head?_eq_some_iff.mp hfirst
  obtain ⟨steps, last, hd, hf⟩ := derives_of_chain (n := 0) hrewrites
  have hc : Form.Closed last := hlast last (hf ▸ hd.getLast?)
  have hsteps : (Derivation.mk ([.nonterminal start] :: forms)).steps = steps.length := by
    simp [Derivation.steps, ← hf, formsOf]
  obtain ⟨words, hl, hwords⟩ := hd.exists_words hg hc
  refine ⟨words, hl.trans hsteps.symm, ?_⟩
  intro σ _ fuel source rest hfuel hdraws
  rw [hsteps] at hfuel
  rw [derive_eq, expandSteps, expandFrom, if_pos (hd.start_mem hc),
    hwords _ _ fuel source rest hfuel hdraws, List.foldl_flip_cons_eq_append', List.append_nil]
  simp [Except.map, hf]

theorem draws_given (words : List UInt32) :
    Draws (Generator.given words) words (Generator.given []) := by
  induction words with
  | nil => exact .none _
  | cons word rest ih => exact .some rfl ih

theorem sample_choosable : sample.Choosable := by
  intro x body hb
  have hall : ∀ e ∈ sample.rules.entries, e.2.length < UInt32.size := by decide
  exact hall _ (Table.get?_eq_some_iff.mp hb)

theorem sample_derivation_attained :
    ∃ words : List UInt32, words.length = 3 ∧
      sample.derive 4 'S' .unbounded (Generator.given words) =
        some (.ok ⟨[[.nonterminal 'S'], [.terminal 'd', .nonterminal 'A'],
          [.terminal 'd', .terminal 'a', .nonterminal 'B'],
          [.terminal 'd', .terminal 'a', .terminal 'd']]⟩, .given []) := by
  let d : Derivation := ⟨[[.nonterminal 'S'], [.terminal 'd', .nonterminal 'A'],
    [.terminal 'd', .terminal 'a', .nonterminal 'B'],
    [.terminal 'd', .terminal 'a', .terminal 'd']]⟩
  have hS : sample.Allows [.nonterminal 'S']
      ⟨1, 'S', [.terminal 'd', .nonterminal 'A'], [.terminal 'd', .nonterminal 'A']⟩ :=
    ⟨⟨_, rfl, by decide⟩, [], [], Form.closed_terminals [], rfl, rfl⟩
  have hA : sample.Allows [.terminal 'd', .nonterminal 'A']
      ⟨2, 'A', [.terminal 'a', .nonterminal 'B'],
        [.terminal 'd', .terminal 'a', .nonterminal 'B']⟩ :=
    ⟨⟨_, rfl, by decide⟩, [.terminal 'd'], [], Form.closed_terminals ['d'], rfl, rfl⟩
  have hB : sample.Allows [.terminal 'd', .terminal 'a', .nonterminal 'B']
      ⟨3, 'B', [.terminal 'd'], [.terminal 'd', .terminal 'a', .terminal 'd']⟩ :=
    ⟨⟨_, rfl, by decide⟩, [.terminal 'd', .terminal 'a'], [],
      Form.closed_terminals ['d', 'a'], rfl, rfl⟩
  have hrewrites : d.forms.IsChain sample.Rewrites :=
    .cons_cons ⟨_, hS, rfl⟩ (.cons_cons ⟨_, hA, rfl⟩ (.cons_cons ⟨_, hB, rfl⟩ (.singleton _)))
  have hlast : ∀ last ∈ d.forms.getLast?, Form.Closed last := by
    intro last hl
    cases hl
    exact Form.closed_terminals ['d', 'a', 'd']
  obtain ⟨words, hl, hwords⟩ := exists_words_derive sample_choosable rfl hrewrites hlast
  exact ⟨words, hl, hwords 4 _ _ (by decide) (draws_given words)⟩

end Grammar

end CharGrammar
