import CharGrammar.Proofs.Limits
import CharGrammar.Proofs.RegularWords

namespace CharGrammar

namespace Form

/-- So many terminals and then one nonterminal. -/
def Open (n : Nat) (form : Form) : Prop :=
  ∃ (word : List Char) (x : Char), word.length = n ∧
    form = word.map .terminal ++ [.nonterminal x]

/-- So many terminals and nothing else. -/
def Spells (n : Nat) (form : Form) : Prop :=
  ∃ word : List Char, word.length = n ∧ form = word.map .terminal

variable {n : Nat} {form : Form}

theorem Open.length_eq (h : Open n form) : form.length = n + 1 := by
  obtain ⟨word, x, rfl, rfl⟩ := h
  simp

theorem Open.not_closed (h : Open n form) : ¬ Closed form := by
  obtain ⟨word, x, _, rfl⟩ := h
  intro hc
  have hx := hc (.nonterminal x) (by simp)
  cases hx

theorem Spells.length_eq (h : Spells n form) : form.length = n := by
  obtain ⟨word, rfl, rfl⟩ := h
  simp

theorem Spells.closed (h : Spells n form) : Closed form := by
  obtain ⟨word, _, rfl⟩ := h
  exact closed_terminals word

theorem open_start (x : Char) : Open 0 [.nonterminal x] := ⟨[], x, rfl, rfl⟩

end Form

/-- The forms are open, with a terminal more in each, and only the last may be closed. -/
def GrowByTerminals (forms : List Form) : Prop :=
  ∀ i form, forms[i]? = some form →
    Form.Open i form ∨ (i + 1 = forms.length ∧ Form.Spells i form)

/-- Limits that stop a derivation whose forms are open after `k` steps and not before. -/
structure Limits.MetAt (limits : Limits) (k : Nat) : Prop where
  steps_before : ∀ n < k, limits.stepsReached n = false
  length_before : ∀ n ≤ k, limits.lengthPassed n = false
  met : limits.stepsReached k = true ∨ limits.lengthPassed (k + 1) = true

theorem Limits.metAt_maxSteps (k : Nat) : Limits.MetAt ⟨some k, none⟩ k where
  steps_before n h := by simpa [stepsReached] using h
  length_before _ _ := rfl
  met := .inl (by simp [stepsReached])

theorem Limits.metAt_maxLength (k : Nat) : Limits.MetAt ⟨none, some k⟩ k where
  steps_before _ _ := rfl
  length_before n h := by simpa [lengthPassed] using h
  met := .inr (by simp [lengthPassed])

namespace Grammar

variable {β σ : Type} [WordSource σ] {g : Grammar} {limits limits' : Limits}
  {observe : β → DerivationStep → β} {fuel n m k : Nat} {form last : Form} {seen : β}
  {source rest : σ} {e : Expansion β σ} {step : DerivationStep} {steps : List DerivationStep}
  {start : Char}

/-- One step in a regular grammar turns the nonterminal into a terminal, or puts one before
another. -/
theorem Allows.linear (hr : g.languageClass = .regular) (h : g.Allows form step)
    (ho : Form.Open n form) : Form.Open (n + 1) step.form ∨ Form.Spells (n + 1) step.form := by
  obtain ⟨word, x, hw, rfl⟩ := ho
  obtain ⟨hx, hnext⟩ := h.at_end
  obtain ⟨body, hb, hm⟩ := h.chosen
  rcases shape_of_regular hr hb hm with ⟨t, ha⟩ | ⟨t, y, ha⟩
  · exact .inr ⟨word ++ [t], by simp [hw], by simp [hnext, ha]⟩
  · exact .inl ⟨word ++ [t], y, by simp [hw], by simp [hnext, ha]⟩

/-- The forms of a derivation in a regular grammar are open and grow by a terminal each, and only
the last may be closed. -/
theorem Derives.linear (hr : g.languageClass = .regular) (h : g.Derives m form steps last)
    (ho : Form.Open n form) {i : Nat} {f : Form} (hi : (formsOf form steps)[i]? = some f) :
    Form.Open (n + i) f ∨ (i = steps.length ∧ Form.Spells (n + i) f) := by
  induction h generalizing n i with
  | done m form =>
    cases i with
    | zero =>
      cases hi
      exact .inl ho
    | succ i => cases hi
  | @next m form last step steps allowed _ more ih =>
    cases i with
    | zero =>
      cases hi
      exact .inl ho
    | succ i =>
      change (formsOf step.form steps)[i]? = some f at hi
      rw [← Nat.add_assoc, Nat.add_right_comm, List.length_cons, Nat.add_right_cancel_iff]
      rcases allowed.linear hr ho with hopen | hspells
      · exact ih hopen hi
      · -- Nothing can follow a closed form.
        obtain ⟨rfl, -⟩ := more.eq_of_closed hspells.closed
        cases i with
        | zero =>
          cases hi
          exact .inr ⟨rfl, hspells⟩
        | succ i => cases hi

theorem Derives.growByTerminals (hr : g.languageClass = .regular)
    (h : g.Derives 0 [.nonterminal start] steps last) :
    GrowByTerminals (formsOf [.nonterminal start] steps) := by
  intro i form hi
  rcases h.linear hr (Form.open_start start) hi with hopen | ⟨rfl, hspells⟩
  · exact .inl (by rwa [Nat.zero_add] at hopen)
  · exact .inr ⟨by simp [formsOf], by rwa [Nat.zero_add] at hspells⟩

theorem growByTerminals_of_derivationSteps (hr : g.languageClass = .regular)
    (h : g.derivationSteps fuel start limits source = some steps) :
    GrowByTerminals (formsOf [.nonterminal start] steps) := by
  rw [derivationSteps_eq] at h
  obtain ⟨e, he, rfl⟩ := Option.map_eq_some_iff.mp h
  by_cases hs : start ∈ g.nonterminals
  · obtain ⟨last, hd, _⟩ := expandSteps_derives he hs
    exact hd.growByTerminals hr
  · rw [expandSteps, expandFrom, if_neg hs] at he
    cases he
    exact (Derives.done (g := g) 0 _).growByTerminals hr

/-- A completed derivation spells a terminal with each step. -/
theorem Derives.spells (hr : g.languageClass = .regular)
    (h : g.Derives 0 [.nonterminal start] steps last) (hc : Form.Closed last) :
    Form.Spells steps.length last := by
  have hlast : (formsOf [.nonterminal start] steps)[steps.length]? = some last := by
    rw [← h.getLast?, List.getLast?_eq_getElem?]
    simp [formsOf]
  rcases h.growByTerminals hr _ _ hlast with hopen | ⟨_, hspells⟩
  · exact absurd hc hopen.not_closed
  · exact hspells

theorem steps_eq_of_derive (hr : g.languageClass = .regular) {d : Derivation}
    (h : g.derive fuel start limits source = some (.ok d, rest)) :
    GrowByTerminals d.forms ∧ d.steps = d.result.length := by
  obtain ⟨taken, last, he, rfl⟩ := derive_eq_ok_iff.mp h
  obtain ⟨_, hruns, hc, _, _⟩ := expandSteps_eq_ok_iff.mp he
  have hd := hruns.derives
  refine ⟨hd.growByTerminals hr, ?_⟩
  rw [hd.result_eq, Form.chars, List.length_map, (hd.spells hr hc).length_eq]
  simp [Derivation.steps, formsOf]

/-- Before the limits are met, an open form is the last only for want of a rule. -/
theorem Ends.noRule_of_open {result : Except DerivationError Form}
    (h : g.Ends limits n form result) (hk : limits.MetAt k) (hn : n < k) (ho : Form.Open n form) :
    ∃ before after x, Form.Closed before ∧ form = before ++ .nonterminal x :: after ∧
      g.alternatives? x = none ∧ result = .error (.noRule x) := by
  cases h with
  | closed hc => exact absurd hc ho.not_closed
  | stopped _ reached =>
    rw [hk.steps_before n hn] at reached
    cases reached
  | tooLong _ passed =>
    rw [ho.length_eq, hk.length_before _ hn] at passed
    cases passed
  | noRule hbefore split missing => exact ⟨_, _, _, hbefore, split, missing, rfl⟩

/-- An open form after as many steps as the limits allow is the last. -/
theorem expand_metAt (hk : limits.MetAt k) (ho : Form.Open k form) :
    (if limits.lengthPassed form.length then
      some ⟨.error (.limitExceeded k form.length), seen, source⟩
    else g.expand limits observe (fuel + 1) k form seen source) =
      some ⟨.error (.limitExceeded k (k + 1)), seen, source⟩ := by
  rw [ho.length_eq]
  split
  · rfl
  · next hp => rw [expand_stopped ho.not_closed (hk.met.resolve_right hp), ho.length_eq]

/-- Limits that are met after the same number of steps stop a derivation in a regular grammar alike.
Where one tells the end after a step, another may tell it before the next, with fuel for it. -/
theorem expand_of_metAt (hr : g.languageClass = .regular) (hk : limits.MetAt k)
    (hk' : limits'.MetAt k) (hn : n < k) (ho : Form.Open n form)
    (h : g.expand limits observe fuel n form seen source = some e) :
    g.expand limits' observe (fuel + 1) n form seen source = some e := by
  induction fuel generalizing n form seen source with
  | zero => cases h
  | succ fuel ih =>
    rcases expand_cases h with ⟨hends, hseen, hsource⟩ | ⟨step, middle, hm, hnum, _, hafter⟩
    · obtain ⟨before, after, x, hbefore, rfl, hx, hresult⟩ := hends.noRule_of_open hk hn ho
      rw [expand_missing hbefore hx (hk'.steps_before n hn), ← hresult, ← hseen, ← hsource]
    · rw [(hm.mono (Nat.le_succ _)).expand_eq hnum, hk'.steps_before n hn,
        if_neg Bool.false_ne_true]
      rcases hm.allows.linear hr ho with hopen | hspells
      · rcases Nat.lt_or_eq_of_le hn with hlt | rfl
        · -- There is room for the nonterminal too, so both limits let the derivation go on.
          rw [hopen.length_eq, hk.length_before _ hlt] at hafter
          rw [hopen.length_eq, hk'.length_before _ hlt, if_neg Bool.false_ne_true]
          rcases hafter with ⟨hp, _⟩ | ⟨_, hmore⟩
          · cases hp
          · exact ih hlt hopen hmore
        · rw [expand_metAt hk' hopen]
          rcases hafter with ⟨_, rfl⟩ | ⟨hp, hmore⟩
          · rw [hopen.length_eq]
          · cases fuel with
            | zero => cases hmore
            | succ fuel =>
              rw [← hmore, ← expand_metAt hk hopen, hp, if_neg Bool.false_ne_true]
      · rw [hspells.length_eq, hk.length_before _ hn] at hafter
        rw [hspells.length_eq, hk'.length_before _ hn, if_neg Bool.false_ne_true,
          expand_closed hspells.closed]
        rcases hafter with ⟨hp, _⟩ | ⟨_, hmore⟩
        · cases hp
        · cases fuel with
          | zero => cases hmore
          | succ fuel => rw [← hmore, expand_closed hspells.closed]

theorem expandFrom_of_metAt (hr : g.languageClass = .regular) (hk : limits.MetAt k)
    (hk' : limits'.MetAt k) (hpos : 0 < k)
    (h : g.expandFrom limits observe fuel start seen source = some e) :
    g.expandFrom limits' observe (fuel + 1) start seen source = some e := by
  unfold expandFrom at h ⊢
  split at h
  · next hs =>
    rw [if_pos hs]
    exact expand_of_metAt hr hk hk' hpos (Form.open_start start) h
  · next hs => rwa [if_neg hs]

theorem generate_of_metAt (hr : g.languageClass = .regular) (hk : limits.MetAt k)
    (hk' : limits'.MetAt k) (hpos : 0 < k) {answer : Except DerivationError (List Char) × σ}
    (h : g.generate fuel start limits source = some answer) :
    g.generate (fuel + 1) start limits' source = some answer := by
  obtain ⟨e, he, ha⟩ := Option.map_eq_some_iff.mp h
  rw [generate, expandFrom_of_metAt hr hk hk' hpos he, Option.map_some, ha]

/-- A limit on the steps alone is told with one symbol more than steps. -/
theorem cut_off_at (hr : g.languageClass = .regular) {count length : Nat}
    (h : g.generate fuel start ⟨some k, none⟩ source =
      some (.error (.limitExceeded count length), rest)) : count = k ∧ length = k + 1 := by
  obtain ⟨steps, form, ⟨⟨_, hruns⟩, _⟩, rfl, rfl, hmet⟩ := reaches_of_limitExceeded h
  rcases hmet with ⟨hk, hc⟩ | ⟨_, max, hmax, _⟩
  · cases hk
    have hlast := hruns.derives.getLast?
    rw [List.getLast?_eq_getElem?] at hlast
    rcases hruns.derives.growByTerminals hr _ _ hlast with hopen | ⟨_, hspells⟩
    · exact ⟨rfl, by simpa [formsOf] using hopen.length_eq⟩
    · exact absurd hspells.closed hc
  · cases hmax

/-- In a regular grammar the forms of a derivation grow by a terminal with each step, whether it is
completed or not, so a completed one has as many steps as characters. A limit on the steps and the
same limit on the length then have the same outcomes and leave the same words to draw, and where one
of them is passed it is told with that many steps and one symbol more. -/
theorem regular_limits_agree (hr : g.languageClass = .regular) (start : Char) :
    (∀ {σ : Type} [WordSource σ] (fuel : Nat) (limits : Limits) (source rest : σ),
      (∀ steps, g.derivationSteps fuel start limits source = some steps →
        GrowByTerminals (formsOf [.nonterminal start] steps)) ∧
      ∀ d, g.derive fuel start limits source = some (.ok d, rest) →
        GrowByTerminals d.forms ∧ d.steps = d.result.length) ∧
    ∀ k ≥ 1, ∀ {σ : Type} [WordSource σ] (source rest : σ),
      (∀ answer, (∃ fuel, g.generate fuel start ⟨some k, none⟩ source = some (answer, rest)) ↔
        ∃ fuel, g.generate fuel start ⟨none, some k⟩ source = some (answer, rest)) ∧
      ∀ fuel steps length, g.generate fuel start ⟨some k, none⟩ source =
        some (.error (.limitExceeded steps length), rest) → steps = k ∧ length = k + 1 := by
  constructor
  · intro σ _ fuel limits source rest
    exact ⟨fun _ => growByTerminals_of_derivationSteps hr, fun _ => steps_eq_of_derive hr⟩
  · intro k hk σ _ source rest
    refine ⟨?_, fun _ _ _ => cut_off_at hr⟩
    intro answer
    constructor
    · rintro ⟨fuel, h⟩
      exact ⟨fuel + 1,
        generate_of_metAt hr (Limits.metAt_maxSteps k) (Limits.metAt_maxLength k) hk h⟩
    · rintro ⟨fuel, h⟩
      exact ⟨fuel + 1,
        generate_of_metAt hr (Limits.metAt_maxLength k) (Limits.metAt_maxSteps k) hk h⟩

theorem sample_limits_agree :
    sample.languageClass = .regular ∧
    GrowByTerminals [[.nonterminal 'S'], [.terminal 'd', .nonterminal 'A'],
      [.terminal 'd', .terminal 'b']] ∧
    ∃ fuel, sample.generate fuel 'S' ⟨none, some 1⟩ (Counted.mk (Generator.given [0]) 0) =
      some (.error (.limitExceeded 1 2), ⟨.given [], 1⟩) := by
  have hr : sample.languageClass = .regular := by decide
  have hd : sample.derive 3 'S' .unbounded (Generator.given [0, 0x80000000]) =
      some (.ok ⟨[[.nonterminal 'S'], [.terminal 'd', .nonterminal 'A'],
        [.terminal 'd', .terminal 'b']]⟩, .given []) := rfl
  have hcut : sample.generate 2 'S' ⟨some 1, none⟩ (Counted.mk (Generator.given [0]) 0) =
      some (.error (.limitExceeded 1 2), ⟨.given [], 1⟩) := rfl
  refine ⟨hr, (((regular_limits_agree hr 'S').1 3 .unbounded _ _).2 _ hd).1, ?_⟩
  exact (((regular_limits_agree hr 'S').2 1 (Nat.le_refl 1) _ _).1 _).mp ⟨2, hcut⟩

/-- Limits of zero differ: no step at all is told before one is made, no symbol only after it. -/
example :
    sample.generate 2 'S' ⟨some 0, none⟩ (Generator.given [0]) =
      some (.error (.limitExceeded 0 1), .given [0]) ∧
    sample.generate 2 'S' ⟨none, some 0⟩ (Generator.given [0]) =
      some (.error (.limitExceeded 1 2), .given []) := ⟨rfl, rfl⟩

end Grammar

end CharGrammar
