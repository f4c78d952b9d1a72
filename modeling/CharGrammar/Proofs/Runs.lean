import CharGrammar.Proofs.Choices
import CharGrammar.Proofs.Derives

namespace CharGrammar

/-- No step was one too many, and none made the form too long. -/
def Limits.Admit (limits : Limits) (steps : List DerivationStep) : Prop :=
  ∀ step ∈ steps, limits.stepsReached (step.number - 1) = false ∧
    limits.lengthPassed step.form.length = false

namespace Grammar

/-- How a derivation with these limits may end, after `n` steps and with this last form. -/
inductive Ends (g : Grammar) (limits : Limits) (n : Nat) (last : Form) :
    Except DerivationError Form → Prop
  | closed (h : Form.Closed last) : Ends g limits n last (.ok last)
  | stopped (h : ¬ Form.Closed last) (reached : limits.stepsReached n = true) :
      Ends g limits n last (.error (.limitExceeded n last.length))
  | tooLong (h : 0 < n) (passed : limits.lengthPassed last.length = true) :
      Ends g limits n last (.error (.limitExceeded n last.length))
  | noRule {before after : Form} {x : Char} (h : Form.Closed before)
      (split : last = before ++ .nonterminal x :: after) (missing : g.alternatives? x = none) :
      Ends g limits n last (.error (.noRule x))

/-- A step that replaces the leftmost nonterminal by an alternative drawn from a source. The fuel
bounds the draws. -/
structure Moves {σ : Type} [WordSource σ] (g : Grammar) (fuel : Nat) (form : Form) (source : σ)
    (step : DerivationStep) (rest : σ) : Prop where
  leftmost : ∃ before after, form.leftmost? = some (before, step.nonterminal, after) ∧
    step.form = before ++ step.alternative ++ after
  drawn : ∃ first others, g.alternatives? step.nonterminal = some (first :: others) ∧
    choose first others fuel source = some (step.alternative, rest)

/-- The run from a form and a source after `n` steps: the steps that it takes with so much fuel,
the form that it comes to, and the source that it leaves. -/
inductive Runs {σ : Type} [WordSource σ] (g : Grammar) :
    Nat → Nat → Form → σ → List DerivationStep → Form → σ → Prop
  | done (fuel n : Nat) (form : Form) (source : σ) : Runs g fuel n form source [] form source
  | next {fuel n : Nat} {form last : Form} {source middle rest : σ} {step : DerivationStep}
      {steps : List DerivationStep} (moves : g.Moves (fuel + 1) form source step middle)
      (number : step.number = n + 1)
      (more : Runs g fuel (n + 1) step.form middle steps last rest) :
      Runs g (fuel + 1) n form source (step :: steps) last rest

variable {β σ : Type} [WordSource σ] {g : Grammar} {limits : Limits}
  {observe : β → DerivationStep → β} {fuel n : Nat} {form last : Form} {seen seen' : β}
  {source middle rest : σ} {e : Expansion β σ} {step : DerivationStep}
  {steps : List DerivationStep}

theorem Moves.allows (h : g.Moves fuel form source step rest) : g.Allows form step := by
  obtain ⟨before, after, hl, hf⟩ := h.leftmost
  obtain ⟨first, others, hb, hc⟩ := h.drawn
  obtain ⟨hform, hbefore⟩ := Form.eq_of_leftmost? hl
  exact ⟨⟨_, hb, mem_of_choose hc⟩, before, after, hbefore, hform, hf⟩

theorem Moves.mono {more : Nat} (h : g.Moves fuel form source step rest) (hle : fuel ≤ more) :
    g.Moves more form source step rest := by
  obtain ⟨first, others, hb, hc⟩ := h.drawn
  exact ⟨h.leftmost, first, others, hb, choose_mono hc hle⟩

theorem expand_closed (h : Form.Closed form) :
    g.expand limits observe (fuel + 1) n form seen source = some ⟨.ok form, seen, source⟩ := by
  rw [expand, Form.closed_iff_leftmost?.mp h]

theorem expand_stopped (h : ¬ Form.Closed form) (hs : limits.stepsReached n = true) :
    g.expand limits observe (fuel + 1) n form seen source =
      some ⟨.error (.limitExceeded n form.length), seen, source⟩ := by
  rw [Form.closed_iff_leftmost?] at h
  obtain ⟨split, hl⟩ := Option.ne_none_iff_exists'.mp h
  rw [expand, hl]
  exact if_pos hs

theorem expand_missing {before after : Form} {x : Char} (h : Form.Closed before)
    (hx : g.alternatives? x = none) (hs : limits.stepsReached n = false) :
    g.expand limits observe (fuel + 1) n (before ++ .nonterminal x :: after) seen source =
      some ⟨.error (.noRule x), seen, source⟩ := by
  rw [expand, Form.leftmost?_split h]
  simp only [hs, hx, Bool.false_eq_true, if_false]

/-- Limits are tested before a step and after it, and do not change the step itself. -/
theorem Moves.expand_eq (h : g.Moves (fuel + 1) form source step middle)
    (hn : step.number = n + 1) :
    g.expand limits observe (fuel + 1) n form seen source =
      if limits.stepsReached n then some ⟨.error (.limitExceeded n form.length), seen, source⟩
      else if limits.lengthPassed step.form.length then
        some ⟨.error (.limitExceeded (n + 1) step.form.length), observe seen step, middle⟩
      else g.expand limits observe fuel (n + 1) step.form (observe seen step) middle := by
  obtain ⟨before, after, hl, hf⟩ := h.leftmost
  obtain ⟨first, others, hb, hc⟩ := h.drawn
  rw [expand, hl]
  simp only [hb, hc, ← hf, ← hn]

/-- A derivation that goes on has ended, or takes one step within its steps and then is too long
or goes on. -/
theorem expand_cases
    (h : g.expand limits observe (fuel + 1) n form seen source = some e) :
    (g.Ends limits n form e.result ∧ e.observed = seen ∧ e.source = source) ∨
    ∃ step middle, g.Moves (fuel + 1) form source step middle ∧ step.number = n + 1 ∧
      limits.stepsReached n = false ∧
      ((limits.lengthPassed step.form.length = true ∧
          e = ⟨.error (.limitExceeded (n + 1) step.form.length), observe seen step, middle⟩) ∨
        (limits.lengthPassed step.form.length = false ∧
          g.expand limits observe fuel (n + 1) step.form (observe seen step) middle = some e)) := by
  unfold expand at h
  cases hl : form.leftmost? with
  | none =>
    rw [hl] at h
    cases h
    exact .inl ⟨.closed (Form.closed_iff_leftmost?.mpr hl), rfl, rfl⟩
  | some split =>
    obtain ⟨before, x, after⟩ := split
    rw [hl] at h
    obtain ⟨hform, hbefore⟩ := Form.eq_of_leftmost? hl
    dsimp only at h
    split at h
    · next hs =>
      cases h
      refine .inl ⟨.stopped ?_ hs, rfl, rfl⟩
      rw [Form.closed_iff_leftmost?, hl]
      exact nofun
    · next hs =>
      split at h
      · next first others hb =>
        split at h
        · cases h
        · next alternative middle hc =>
          let step : DerivationStep := ⟨n + 1, x, alternative, before ++ alternative ++ after⟩
          have hm : g.Moves (fuel + 1) form source step middle :=
            ⟨⟨before, after, hl, rfl⟩, first, others, hb, hc⟩
          refine .inr ⟨step, middle, hm, rfl, eq_false_of_ne_true hs, ?_⟩
          split at h
          · next hp =>
            cases h
            exact .inl ⟨hp, rfl⟩
          · next hp => exact .inr ⟨eq_false_of_ne_true hp, h⟩
      · next hb =>
        cases h
        exact .inl ⟨.noRule hbefore hform (alternatives?_eq_none hb), rfl, rfl⟩

namespace Runs

theorem derives (h : g.Runs fuel n form source steps last rest) :
    g.Derives n form steps last := by
  induction h with
  | done fuel n form source => exact .done n form
  | next moves number _ ih => exact .next moves.allows number ih

theorem mono {more : Nat} (h : g.Runs fuel n form source steps last rest) (hle : fuel ≤ more) :
    g.Runs more n form source steps last rest := by
  induction h generalizing more with
  | done fuel n form source => exact .done more n form source
  | next moves number _ ih =>
    cases more with
    | zero => cases hle
    | succ more => exact .next (moves.mono hle) number (ih (Nat.le_of_succ_le_succ hle))

/-- Along a run within the limits a derivation goes on where the run has come to. -/
theorem expand_eq (h : g.Runs fuel n form source steps last rest) (ha : limits.Admit steps) :
    g.expand limits observe fuel n form seen source =
      g.expand limits observe (fuel - steps.length) (n + steps.length) last
        (steps.foldl observe seen) rest := by
  induction h generalizing seen with
  | done fuel n form source => rfl
  | next moves number _ ih =>
    obtain ⟨⟨hs, hp⟩, hrest⟩ := List.forall_mem_cons.mp ha
    rw [number, Nat.add_sub_cancel] at hs
    rw [moves.expand_eq number, hs, hp, if_neg Bool.false_ne_true, if_neg Bool.false_ne_true,
      ih hrest, List.length_cons, List.foldl_cons, Nat.add_sub_add_right, Nat.add_right_comm,
      Nat.add_assoc]

end Runs

/-- A random derivation is a run, seen step by step. It stays within its limits, except that its
last form may be too long. -/
theorem expand_runs (h : g.expand limits observe fuel n form seen source = some e) :
    ∃ steps last, g.Runs fuel n form source steps last e.source ∧
      e.observed = steps.foldl observe seen ∧ g.Ends limits (n + steps.length) last e.result ∧
      (∀ step ∈ steps, limits.stepsReached (step.number - 1) = false) ∧
      (e.result = .ok last → steps.length < fuel ∧ limits.Admit steps) := by
  -- The step count is tested before each step and so holds for all of them, the length only after
  -- a step, so it holds for all of them where the derivation is completed.
  induction fuel generalizing n form seen source with
  | zero => cases h
  | succ fuel ih =>
    rcases expand_cases h with ⟨hends, ho, rfl⟩ | ⟨step, middle, hm, hn, hs, hafter⟩
    · exact ⟨[], form, .done _ n form _, ho, hends, nofun, fun _ => ⟨Nat.succ_pos fuel, nofun⟩⟩
    · have hreached : limits.stepsReached (step.number - 1) = false := by
        rw [hn, Nat.add_sub_cancel, hs]
      rcases hafter with ⟨hp, rfl⟩ | ⟨hp, hmore⟩
      · refine ⟨[step], step.form, .next hm hn (.done _ _ _ _), rfl,
          .tooLong (Nat.succ_pos n) hp, ?_, nofun⟩
        simpa using hreached
      · obtain ⟨steps, last, hr, ho, hends, hleft, hadmit⟩ := ih hmore
        refine ⟨step :: steps, last, .next hm hn hr, ho, ?_,
          List.forall_mem_cons.mpr ⟨hreached, hleft⟩, ?_⟩
        · rwa [List.length_cons, Nat.add_comm steps.length, ← Nat.add_assoc]
        · intro hok
          obtain ⟨hfuel, hrest⟩ := hadmit hok
          exact ⟨Nat.succ_lt_succ hfuel, List.forall_mem_cons.mpr ⟨⟨hreached, hp⟩, hrest⟩⟩

/-- A derivation is completed exactly by a run within the limits to a closed form, with fuel to
spare. -/
theorem expand_eq_ok_iff :
    g.expand limits observe fuel n form seen source = some ⟨.ok last, seen', rest⟩ ↔
      ∃ steps, g.Runs fuel n form source steps last rest ∧ Form.Closed last ∧
        steps.length < fuel ∧ limits.Admit steps ∧ seen' = steps.foldl observe seen := by
  constructor
  · intro h
    obtain ⟨steps, last', hr, ho, hends, _, hadmit⟩ := expand_runs h
    cases hends with
    | closed hc =>
      obtain ⟨hfuel, ha⟩ := hadmit rfl
      exact ⟨steps, hr, hc, hfuel, ha, ho⟩
  · intro h
    obtain ⟨steps, hr, hc, hfuel, ha, rfl⟩ := h
    obtain ⟨spare, hspare⟩ := Nat.exists_eq_add_one_of_ne_zero (Nat.sub_ne_zero_of_lt hfuel)
    rw [hr.expand_eq ha, hspare, expand_closed hc]

end Grammar

end CharGrammar
