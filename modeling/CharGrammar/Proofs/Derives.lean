import CharGrammar.Derivation.Basic
import CharGrammar.Derivation.Generate
import CharGrammar.Proofs.Tables
import Mathlib.Data.List.Chain

namespace CharGrammar

/-- No symbol is left to rewrite. -/
def Form.Closed (form : Form) : Prop := ∀ s ∈ form, s.isNonterminal = false

theorem Form.leftmost?_split {before after : Form} {x : Char} (h : Form.Closed before) :
    Form.leftmost? (before ++ .nonterminal x :: after) = some (before, x, after) := by
  induction before with
  | nil => rfl
  | cons s rest ih =>
    cases s with
    | terminal c =>
      have hr := ih fun t ht => h t (List.mem_cons_of_mem _ ht)
      simp [Form.leftmost?, hr]
    | nonterminal y => exact absurd (h _ List.mem_cons_self) (by simp [Symbol.isNonterminal])

theorem Form.closed_iff_leftmost? {form : Form} : Form.Closed form ↔ form.leftmost? = none :=
  Form.leftmost?_eq_none_iff.symm

theorem Form.eq_terminals_of_closed {form : Form} (h : Form.Closed form) :
    form = form.chars.map .terminal := by
  induction form with
  | nil => rfl
  | cons s rest ih =>
    have hr := ih fun t ht => h t (List.mem_cons_of_mem _ ht)
    cases s with
    | terminal c =>
      simp only [Form.chars, List.map_cons, Symbol.char] at hr ⊢
      rw [← hr]
    | nonterminal y => exact absurd (h _ List.mem_cons_self) (by simp [Symbol.isNonterminal])

theorem Form.closed_terminals (word : List Char) : Form.Closed (word.map .terminal) := by
  intro s hs
  obtain ⟨c, _, rfl⟩ := List.mem_map.mp hs
  rfl

theorem Form.chars_terminals (word : List Char) :
    Form.chars (word.map .terminal) = word := by
  simp [Form.chars, Function.comp_def, Symbol.char]

theorem Form.not_closed_nonterminal (x : Char) : ¬ Form.Closed [.nonterminal x] := by
  intro hc
  have hx := hc (.nonterminal x) List.mem_cons_self
  cases hx

namespace Grammar

/-- A step replaces the first nonterminal of a form by one of its alternatives, and keeps what
stands before and after it. -/
structure Allows (g : Grammar) (form : Form) (step : DerivationStep) : Prop where
  chosen : ∃ body, g.alternatives? step.nonterminal = some body ∧ step.alternative ∈ body
  replaced : ∃ before after, Form.Closed before ∧
    form = before ++ .nonterminal step.nonterminal :: after ∧
    step.form = before ++ step.alternative ++ after

/-- Some step leads from one form to another. -/
def Rewrites (g : Grammar) (form next : Form) : Prop :=
  ∃ step, g.Allows form step ∧ step.form = next

/-- A leftmost derivation from a form to a last one, with its steps numbered after `n`. -/
inductive Derives (g : Grammar) : Nat → Form → List DerivationStep → Form → Prop
  | done (n : Nat) (form : Form) : Derives g n form [] form
  | next {n : Nat} {form last : Form} {step : DerivationStep} {steps : List DerivationStep}
      (allowed : g.Allows form step) (number : step.number = n + 1)
      (rest : Derives g (n + 1) step.form steps last) : Derives g n form (step :: steps) last

variable {g : Grammar} {n : Nat} {form last : Form} {step : DerivationStep}
  {steps : List DerivationStep}

theorem Allows.nonterminal_mem_form (h : g.Allows form step) :
    .nonterminal step.nonterminal ∈ form := by
  obtain ⟨before, after, _, rfl, _⟩ := h.replaced
  simp

theorem Allows.nonterminal_mem (h : g.Allows form step) : step.nonterminal ∈ g.nonterminals := by
  obtain ⟨body, hb, _⟩ := h.chosen
  exact (validRule hb).head_mem

theorem Allows.not_closed (h : g.Allows form step) : ¬ Form.Closed form := by
  intro hc
  have hn := hc _ h.nonterminal_mem_form
  cases hn

theorem Allows.alternative_ne_nil (h : g.Allows form step) : step.alternative ≠ [] := by
  obtain ⟨body, hb, hm⟩ := h.chosen
  exact (validRule hb).alternative_ne_nil _ hm

theorem Allows.form_ne_nil (h : g.Allows form step) : step.form ≠ [] := by
  obtain ⟨before, after, _, _, hf⟩ := h.replaced
  simp [hf, h.alternative_ne_nil]

/-- Steps keep to declared symbols. -/
theorem Allows.declared (h : g.Allows form step) (hd : ∀ s ∈ form, g.Declares s) :
    ∀ s ∈ step.form, g.Declares s := by
  obtain ⟨before, after, _, rfl, hf⟩ := h.replaced
  obtain ⟨body, hb, hm⟩ := h.chosen
  intro s hs
  rw [hf] at hs
  rcases List.mem_append.mp hs with hs | hs
  · rcases List.mem_append.mp hs with hs | hs
    · exact hd s (List.mem_append_left _ hs)
    · exact (validRule hb).declared _ hm s hs
  · exact hd s (List.mem_append_right _ (List.mem_cons_of_mem _ hs))

/-- The forms of a derivation in order, with the one it starts from. -/
def formsOf (form : Form) (steps : List DerivationStep) : List Form :=
  form :: steps.map DerivationStep.form

theorem Derives.chain (h : g.Derives n form steps last) :
    (formsOf form steps).IsChain g.Rewrites := by
  induction h with
  | done n form => exact .singleton _
  | next allowed _ _ ih => exact .cons_cons ⟨_, allowed, rfl⟩ ih

/-- Forms that follow from each other by steps are those of a derivation. -/
theorem derives_of_chain {forms : List Form} (h : (form :: forms).IsChain g.Rewrites) :
    ∃ steps last, g.Derives n form steps last ∧ formsOf form steps = form :: forms := by
  induction forms generalizing n form with
  | nil => exact ⟨[], form, .done n form, rfl⟩
  | cons next forms ih =>
    obtain ⟨⟨step, allowed, rfl⟩, hrest⟩ := List.isChain_cons_cons.mp h
    obtain ⟨steps, last, hd, hf⟩ := ih (n := n + 1) hrest
    let numbered : DerivationStep := { step with number := n + 1 }
    have hnumbered : g.Allows form numbered := ⟨allowed.chosen, allowed.replaced⟩
    exact ⟨numbered :: steps, last, .next hnumbered rfl hd, congrArg (form :: ·) hf⟩

theorem Derives.getLast? (h : g.Derives n form steps last) :
    (formsOf form steps).getLast? = some last := by
  induction h with
  | done n form => rfl
  | next _ _ _ ih => rw [formsOf, List.map_cons, List.getLast?_cons_cons, ← formsOf, ih]

theorem Derives.not_closed (h : g.Derives n form steps last) :
    ∀ f ∈ (formsOf form steps).dropLast, ¬ Form.Closed f := by
  induction h with
  | done n form => simp [formsOf]
  | next allowed _ _ ih =>
    intro f hf
    rw [formsOf, List.map_cons, List.dropLast_cons_cons] at hf
    rcases List.mem_cons.mp hf with rfl | hf
    · exact allowed.not_closed
    · exact ih f hf

theorem Derives.last_mem (h : g.Derives n form steps last) : last ∈ formsOf form steps :=
  List.mem_of_getLast? h.getLast?

/-- What every step keeps holds of all forms if it holds of the first. -/
theorem Derives.invariant {P : Form → Prop} (h : g.Derives n form steps last)
    (hstep : ∀ {form step}, g.Allows form step → P form → P step.form) (hform : P form) :
    ∀ f ∈ formsOf form steps, P f := by
  induction h with
  | done n form => simpa [formsOf] using hform
  | next allowed _ _ ih =>
    intro f hf
    rcases List.mem_cons.mp hf with rfl | hf
    · exact hform
    · exact ih (hstep allowed hform) f hf

theorem Derives.declared (h : g.Derives n form steps last) (hd : ∀ s ∈ form, g.Declares s) :
    ∀ f ∈ formsOf form steps, ∀ s ∈ f, g.Declares s :=
  h.invariant Allows.declared hd

/-- Only from a nonterminal can a derivation get to a form without any. -/
theorem Derives.start_mem {x : Char} (h : g.Derives n [.nonterminal x] steps last)
    (hc : Form.Closed last) : x ∈ g.nonterminals := by
  cases h with
  | done => exact absurd hc (Form.not_closed_nonterminal x)
  | next allowed _ _ =>
    cases List.mem_singleton.mp allowed.nonterminal_mem_form
    exact allowed.nonterminal_mem

theorem Derives.last_ne_nil (h : g.Derives n form steps last) (hf : form ≠ []) : last ≠ [] :=
  h.invariant (P := fun f => f ≠ []) (fun allowed _ => allowed.form_ne_nil) hf last h.last_mem

end Grammar

end CharGrammar
