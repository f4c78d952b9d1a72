import CharGrammar.Proofs.Expansions
import CharGrammar.Proofs.Reload

namespace CharGrammar.Grammar

/-- A nonterminal without a rule that stands in a form derived from the start. -/
structure DeadEnd (g : Grammar) (start c : Char) : Prop where
  mem : c ∈ g.nonterminals
  no_rule : g.alternatives? c = none
  derived : ∃ steps form, g.Derives 0 [.nonterminal start] steps form ∧ .nonterminal c ∈ form

/-- A result, or an error that only limits can lead to. -/
inductive WithinRules {α : Type} : Except DerivationError α → Prop
  | completed (a : α) : WithinRules (.ok a)
  | cutOff (steps length : Nat) : WithinRules (.error (.limitExceeded steps length))

variable {σ : Type} [WordSource σ] {g : Grammar} {limits : Limits} {fuel : Nat} {start c x : Char}
  {source rest : σ} {taken : List DerivationStep}

theorem deadEnd_of_expandSteps
    (h : g.expandSteps limits fuel start source = some ⟨.error (.noRule c), taken, rest⟩) :
    (c = start ∧ start ∉ g.nonterminals) ∨ g.DeadEnd start c := by
  by_cases hs : start ∈ g.nonterminals
  · obtain ⟨last, hd, hends⟩ := expandSteps_derives h hs
    cases hends with
    | noRule hbefore split missing =>
      have hc : .nonterminal c ∈ last := by simp [split]
      have hstart : ∀ s ∈ [Symbol.nonterminal start], g.Declares s := by
        intro s hm
        cases List.mem_singleton.mp hm
        exact hs
      exact .inr ⟨hd.declared hstart last hd.last_mem _ hc, missing, _, last, hd, hc⟩
  · rw [expandSteps, expandFrom, if_neg hs] at h
    cases h
    exact .inl ⟨rfl, hs⟩

/-- A loadable grammar has a rule wherever a derivation can come to. -/
theorem Loadable.not_deadEnd (h : g.Loadable) : ¬ g.DeadEnd start c := by
  intro hd
  obtain ⟨body, hb⟩ := h.has_rule c hd.mem
  rw [hd.no_rule] at hb
  cases hb

theorem Loadable.expandSteps_ne_noRule (h : g.Loadable) (hx : x ∈ g.nonterminals) :
    g.expandSteps limits fuel x source ≠ some ⟨.error (.noRule c), taken, rest⟩ := by
  intro he
  rcases deadEnd_of_expandSteps he with ⟨_, hn⟩ | hd
  · exact hn hx
  · exact h.not_deadEnd hd

theorem withinRules_of_ne {α : Type} {r : Except DerivationError α}
    (h : ∀ c, r ≠ .error (.noRule c)) : WithinRules r := by
  cases r with
  | ok a => exact .completed a
  | error e =>
    cases e with
    | noRule c => exact absurd rfl (h c)
    | limitExceeded steps length => exact .cutOff steps length

/-- No derivation in a grammar that was read from a text gets stuck. In any grammar one gets stuck
only at a start that is no nonterminal, or at a nonterminal without a rule that it has derived. -/
theorem stuck_only_at_deadEnds :
    (∀ (text : String) (g : Grammar) (x : Char), RuleFile.parse text = .ok g →
      x ∈ g.nonterminals →
      ∀ {σ : Type} [WordSource σ] (fuel : Nat) (limits : Limits) (source rest : σ),
        (∀ r, g.generate fuel x limits source = some (r, rest) → WithinRules r) ∧
        ∀ r, g.derive fuel x limits source = some (r, rest) → WithinRules r) ∧
    ∀ (g : Grammar) (start c : Char) {σ : Type} [WordSource σ] (fuel : Nat) (limits : Limits)
      (source rest : σ),
      g.generate fuel start limits source = some (.error (.noRule c), rest) ∨
        g.derive fuel start limits source = some (.error (.noRule c), rest) →
      (c = start ∧ start ∉ g.nonterminals) ∨ g.DeadEnd start c := by
  constructor
  · intro text g x hp hx σ _ fuel limits source rest
    have hl := Loadable.of_parse hp
    constructor
    · intro r hr
      apply withinRules_of_ne
      intro c hc
      obtain ⟨taken, he⟩ := generate_eq_error_iff.mp (hc ▸ hr)
      exact hl.expandSteps_ne_noRule hx he
    · intro r hr
      apply withinRules_of_ne
      intro c hc
      obtain ⟨taken, he⟩ := derive_eq_error_iff.mp (hc ▸ hr)
      exact hl.expandSteps_ne_noRule hx he
  · intro g start c σ _ fuel limits source rest h
    rcases h with h | h
    · obtain ⟨taken, he⟩ := generate_eq_error_iff.mp h
      exact deadEnd_of_expandSteps he
    · obtain ⟨taken, he⟩ := derive_eq_error_iff.mp h
      exact deadEnd_of_expandSteps he

/-- The rule `S = aA` where `A` has none. -/
def unfinished : Grammar where
  nonterminals := .ofList ['S', 'A']
  terminals := .ofList ['a']
  rules := .ofList [('S', [[.terminal 'a', .nonterminal 'A']])]
  start := 'S'
  valid := Parts.fault?_eq_none_iff.mp (by decide)

theorem unfinished_deadEnd :
    (∃ r, sample.generate 3 'A' ⟨some 1, none⟩ (Generator.given []) = some (r, .given []) ∧
      WithinRules r) ∧
    unfinished.DeadEnd 'S' 'A' := by
  constructor
  · have hp : RuleFile.parse sample.text = .ok sample := by decide +kernel
    have hr : sample.generate 3 'A' ⟨some 1, none⟩ (Generator.given []) =
        some (.error (.limitExceeded 1 2), .given []) := rfl
    exact ⟨_, hr, (stuck_only_at_deadEnds.1 _ _ 'A' hp (by decide) 3 _ _ _).1 _ hr⟩
  · have hs : unfinished.generate 2 'S' .unbounded (Generator.given []) =
        some (.error (.noRule 'A'), .given []) := rfl
    have hd := stuck_only_at_deadEnds.2 unfinished 'S' 'A' 2 _ _ _ (.inl hs)
    exact hd.resolve_left fun h => absurd h.1 (by decide)

end CharGrammar.Grammar
