import CharGrammar.Grammar.LanguageClass
import CharGrammar.Proofs.Expansions
import CharGrammar.Proofs.Walks
import CharGrammar.Words.Generator

namespace CharGrammar

theorem Alternative.shape_of_isRightLinear {alternative : Alternative}
    (h : alternative.isRightLinear = true) :
    (∃ t, alternative = [.terminal t]) ∨ ∃ t y, alternative = [.terminal t, .nonterminal y] := by
  unfold Alternative.isRightLinear at h
  split at h
  · exact .inl ⟨_, rfl⟩
  · exact .inr ⟨_, _, rfl⟩
  · cases h

namespace Grammar

variable {g : Grammar} {n : Nat} {form last : Form} {steps : List DerivationStep} {word : List Char}

def rewritten (steps : List DerivationStep) : List Char := steps.map DerivationStep.nonterminal

/-- The grammar derives the word from its start symbol. -/
def Derivable (g : Grammar) (word : List Char) : Prop :=
  ∃ steps, g.Derives 0 [.nonterminal g.start] steps (word.map .terminal)

theorem shape_of_regular (hr : g.languageClass = .regular) {x : Char} {body : Body}
    {alternative : Alternative} (hb : g.alternatives? x = some body) (hm : alternative ∈ body) :
    (∃ t, alternative = [.terminal t]) ∨ ∃ t y, alternative = [.terminal t, .nonterminal y] := by
  have hall : g.productions.all (fun p => Alternative.isRightLinear p.2) = true := by
    apply Decidable.byContradiction
    intro hn
    unfold languageClass at hr
    rw [if_neg hn] at hr
    split at hr
    · cases hr
    · split at hr <;> cases hr
  have hp : (x, alternative) ∈ g.productions := mem_productions_iff.mpr ⟨body, hb, hm⟩
  exact Alternative.shape_of_isRightLinear (List.all_eq_true.mp hall _ hp)

theorem Derives.eq_of_closed (h : g.Derives n form steps last) (hc : Form.Closed form) :
    steps = [] ∧ last = form := by
  cases h with
  | done => exact ⟨rfl, rfl⟩
  | next allowed => exact absurd hc allowed.not_closed

/-- Where one nonterminal stands at the end, a step puts one of its alternatives there. -/
theorem Allows.at_end {read : List Char} {x : Char} {step : DerivationStep}
    (h : g.Allows (read.map .terminal ++ [.nonterminal x]) step) :
    step.nonterminal = x ∧ step.form = read.map .terminal ++ step.alternative := by
  obtain ⟨before, after, hbefore, hform, hnext⟩ := h.replaced
  have hl : Form.leftmost? (read.map .terminal ++ .nonterminal x :: []) = _ :=
    Form.leftmost?_split (Form.closed_terminals read)
  rw [hform, Form.leftmost?_split hbefore] at hl
  simp only [Option.some.injEq, Prod.mk.injEq] at hl
  obtain ⟨rfl, hx, rfl⟩ := hl
  exact ⟨hx, by rw [hnext, List.append_nil]⟩

/-- The nonterminals that a derivation rewrites, with the last of them once more, are a walk along
the edges that spells what the derivation adds. -/
theorem Derives.walk_of_regular (hr : g.languageClass = .regular)
    (h : g.Derives n form steps last) {read : List Char} {x : Char}
    (hform : form = read.map .terminal ++ [.nonterminal x]) (hc : Form.Closed last) :
    ∃ added y, last = (read ++ added).map .terminal ∧ (rewritten steps).getLast? = some y ∧
      Walk g.Edge x added (rewritten steps ++ [y]) y ∧
      ∃ body t, g.alternatives? y = some body ∧ [.terminal t] ∈ body := by
  induction h generalizing read x with
  | done n form =>
    subst hform
    have hn := hc (.nonterminal x) (by simp)
    cases hn
  | @next n form last step steps allowed number rest ih =>
    subst hform
    obtain ⟨hx, hnext⟩ := allowed.at_end
    obtain ⟨body, hb, hm⟩ := allowed.chosen
    rw [hx] at hb
    rcases shape_of_regular hr hb hm with ⟨t, ha⟩ | ⟨t, y, ha⟩
    · -- A terminal alone closes the form, so nothing can follow.
      have hclosed : step.form = (read ++ [t]).map Symbol.terminal := by
        rw [hnext, ha, List.map_append]
        rfl
      obtain ⟨rfl, rfl⟩ := rest.eq_of_closed (hclosed ▸ Form.closed_terminals _)
      refine ⟨[t], x, hclosed, by simp [rewritten, hx], ?_, body, t, hb, ha ▸ hm⟩
      rw [rewritten, List.map_cons, hx]
      exact .move ⟨body, hb, _, ha ▸ hm, .loop t⟩ (.stay x)
    · have hgoes : step.form = (read ++ [t]).map Symbol.terminal ++ [.nonterminal y] := by
        rw [hnext, ha, List.map_append, List.append_assoc]
        rfl
      obtain ⟨added, z, hlast, hz, hw, hend⟩ := ih hgoes hc
      refine ⟨t :: added, z, by simpa using hlast, ?_, ?_, hend⟩
      · rw [rewritten, List.map_cons, List.getLast?_cons]
        rw [rewritten] at hz
        rw [hz]
        rfl
      · rw [rewritten, List.map_cons, hx]
        exact .move ⟨body, hb, _, ha ▸ hm, .move t y⟩ hw

theorem Derives.walk_from_start (hr : g.languageClass = .regular)
    (h : g.Derives 0 [.nonterminal g.start] steps (word.map .terminal)) :
    ∃ x, (rewritten steps).getLast? = some x ∧ Walk g.Edge g.start word (rewritten steps ++ [x]) x ∧
      ∃ body t, g.alternatives? x = some body ∧ [.terminal t] ∈ body := by
  have hs : [Symbol.nonterminal g.start] = [].map .terminal ++ [.nonterminal g.start] := rfl
  obtain ⟨added, x, hlast, hx, hw, hend⟩ :=
    h.walk_of_regular hr hs (Form.closed_terminals word)
  have hword : added = word := by
    rw [← Form.chars_terminals word, hlast, List.nil_append, Form.chars_terminals]
  subst hword
  exact ⟨x, hx, hw, hend⟩

theorem derivable_singleton {body : Body} {t : Char} (hb : g.alternatives? g.start = some body)
    (hm : [.terminal t] ∈ body) :
    g.Derives 0 [.nonterminal g.start] [⟨1, g.start, [.terminal t], [.terminal t]⟩]
      ([t].map .terminal) := by
  refine .next ⟨⟨body, hb, hm⟩, [], [], ?_, rfl, rfl⟩ rfl (.done _ _)
  intro s hs
  cases hs

/-- Words that are generated are derived. -/
theorem derivable_of_generate {σ : Type} [WordSource σ] {fuel : Nat} {limits : Limits}
    {source source' : σ} (h : g.generate fuel g.start limits source = some (.ok word, source')) :
    g.Derivable word := by
  obtain ⟨seen, he⟩ := generate_eq_ok_iff.mp h
  exact ⟨seen.reverse, (expandSteps_eq_ok_iff.mp he).2.1.derives⟩

/-- Words that are derived are generated from some random words. -/
theorem exists_generate (hg : g.Choosable) (h : g.Derivable word) :
    ∃ fuel words source', g.generate fuel g.start .unbounded (Generator.given words) =
      some (.ok word, source') := by
  obtain ⟨steps, hd⟩ := h
  obtain ⟨words, _, hwords⟩ := hd.exists_words hg (Form.closed_terminals word)
  refine ⟨steps.length + 1, words, .given [], ?_⟩
  unfold generate expandFrom
  rw [if_pos g.valid.start_mem,
    hwords _ _ _ _ _ (Nat.lt_succ_self steps.length) (draws_given words)]
  simp [Except.map, Form.chars_terminals]

end Grammar

open Grammar

/-- The automaton of a regular grammar reads each derived word through the nonterminals that the
derivation rewrites, staying in the last of them for the last symbol. It accepts the word unless
that is the start symbol, so it accepts all words exactly if no alternative of the start symbol is
a terminal alone. -/
theorem run_follows_derivation {g : Grammar} {a : Automaton} (hr : g.languageClass = .regular)
    (ha : (Automaton.ofGrammar g .reject).value = .ok a) :
    (∀ steps word, g.Derives 0 [.nonterminal g.start] steps (word.map .terminal) →
      ∃ x, (rewritten steps).getLast? = some x ∧ (a.run word).path = rewritten steps ++ [x] ∧
        (a.run word).ReadsTo word x ∧ (a.accepts word = true ↔ x ≠ g.start)) ∧
    ((∀ word, g.Derivable word → a.accepts word = true) ↔
      ∀ body t, g.alternatives? g.start = some body → [.terminal t] ∉ body) ∧
    (∀ {σ : Type} [WordSource σ] (fuel : Nat) (limits : Limits) (source source' : σ) word,
      g.generate fuel g.start limits source = some (.ok word, source') → g.Derivable word) ∧
    (g.Choosable → ∀ word, g.Derivable word → ∃ fuel words source',
      g.generate fuel g.start .unbounded (Generator.given words) = some (.ok word, source')) := by
  have hf : a.Follows g.Edge g.start :=
    Automaton.follows_of_ofGrammar ha fun _ _ _ => Automaton.next?_eq_some_iff_edge ha
  refine ⟨?_, ?_, fun _ _ _ _ _ => derivable_of_generate, fun hg _ => exists_generate hg⟩
  · intro steps word h
    obtain ⟨x, hx, hw, _⟩ := h.walk_from_start hr
    exact ⟨x, hx, hf.path_eq _ _ _ hw, (hf.readsTo_iff _ _).mpr ⟨_, hw⟩,
      hf.accepts_iff_of_walk hw⟩
  · constructor
    · intro h body t hb hm
      have hd := derivable_singleton hb hm
      obtain ⟨x, hx, hw, _⟩ := hd.walk_from_start hr
      have hs : g.start = x := Option.some.inj hx
      exact (hf.accepts_iff_of_walk hw).mp (h _ ⟨_, hd⟩) hs.symm
    · intro h word hd
      obtain ⟨steps, hd⟩ := hd
      obtain ⟨x, _, hw, body, t, hb, hm⟩ := hd.walk_from_start hr
      apply (hf.accepts_iff_of_walk hw).mpr
      intro hs
      exact h body t (hs ▸ hb) hm

/-- The word `db` is derived by way of `S` and `A`, and read along them. -/
theorem sample_words_followed :
    ∃ a, (Automaton.ofGrammar sample .reject).value = .ok a ∧
      (a.run ['d', 'b']).path = ['S', 'A', 'A'] ∧ (a.run ['d', 'b']).ReadsTo ['d', 'b'] 'A' ∧
      ∀ word, sample.Derivable word → a.accepts word = true := by
  have hok : (Automaton.ofGrammar sample .reject).value.isOk = true := by decide
  have hdrawn : sample.expandSteps .unbounded 3 'S' (Generator.given [0, 0x80000000]) =
      some ⟨.ok (['d', 'b'].map .terminal),
        [⟨2, 'A', [.terminal 'b'], [.terminal 'd', .terminal 'b']⟩,
          ⟨1, 'S', [.terminal 'd', .nonterminal 'A'], [.terminal 'd', .nonterminal 'A']⟩],
        .given []⟩ := rfl
  obtain ⟨_, hruns, _⟩ := expandSteps_eq_ok_iff.mp hdrawn
  cases ha : (Automaton.ofGrammar sample .reject).value with
  | error e =>
    rw [ha] at hok
    cases hok
  | ok a =>
    obtain ⟨hfollows, haccepts, _⟩ := run_follows_derivation (by decide) ha
    obtain ⟨x, hx, hpath, hreads, _⟩ := hfollows _ _ hruns.derives
    cases hx
    refine ⟨a, rfl, hpath, hreads, haccepts.mpr ?_⟩
    intro body t hb hm
    have hs : sample.alternatives? sample.start = some [[.terminal 'd', .nonterminal 'A']] := rfl
    rw [hs] at hb
    cases hb
    simp at hm

end CharGrammar
