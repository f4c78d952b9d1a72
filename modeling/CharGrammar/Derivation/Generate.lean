import CharGrammar.Derivation.Basic
import CharGrammar.Grammar.Basic
import CharGrammar.Journal
import CharGrammar.Words.Source

namespace CharGrammar

/-- One step of a derivation and the form that it gives. -/
structure DerivationStep where
  number : Nat
  nonterminal : Char
  alternative : Alternative
  form : Form
deriving DecidableEq, Repr

def DerivationStep.event (s : DerivationStep) : Event :=
  .expanded s.number s.nonterminal s.alternative s.form

/-- How a derivation ended, what was observed on the way, and the source it left. -/
structure Expansion (β σ : Type) where
  result : Except DerivationError Form
  observed : β
  source : σ

variable {β σ : Type} [WordSource σ]

namespace Grammar

/-- Goes on from a form after so many steps. The number of steps is bounded before a step and the
length after it. A derivation need not end, and has no answer if the fuel runs out before. -/
def expand (g : Grammar) (limits : Limits) (observe : β → DerivationStep → β) :
    (fuel steps : Nat) → (form : Form) → (seen : β) → (source : σ) → Option (Expansion β σ)
  | 0, _, _, _, _ => none
  | fuel + 1, steps, form, seen, source =>
    match form.leftmost? with
    | none => some ⟨.ok form, seen, source⟩
    | some (before, nonterminal, after) =>
      if limits.stepsReached steps then
        some ⟨.error (.limitExceeded steps form.length), seen, source⟩
      else match g.alternatives? nonterminal with
        | some (first :: rest) =>
          match choose first rest (fuel + 1) source with
          | none => none
          | some (alternative, source) =>
            let form := before ++ alternative ++ after
            let seen := observe seen ⟨steps + 1, nonterminal, alternative, form⟩
            if limits.lengthPassed form.length then
              some ⟨.error (.limitExceeded (steps + 1) form.length), seen, source⟩
            else g.expand limits observe fuel (steps + 1) form seen source
        | _ => some ⟨.error (.noRule nonterminal), seen, source⟩

def expandFrom (g : Grammar) (limits : Limits) (observe : β → DerivationStep → β) (fuel : Nat)
    (start : Char) (seen : β) (source : σ) : Option (Expansion β σ) :=
  if start ∈ g.nonterminals then
    g.expand limits observe fuel 0 [.nonterminal start] seen source
  else some ⟨.error (.noRule start), seen, source⟩

def generate (g : Grammar) (fuel : Nat) (start : Char) (limits : Limits) (source : σ) :
    Option (Except DerivationError (List Char) × σ) :=
  (g.expandFrom limits (fun _ _ => ()) fuel start () source).map fun e =>
    (e.result.map Form.chars, e.source)

/-- A derivation from a nonterminal, with all its forms. -/
def derive (g : Grammar) (fuel : Nat) (start : Char) (limits : Limits) (source : σ) :
    Option (Except DerivationError Derivation × σ) :=
  (g.expandFrom limits (fun forms s => s.form :: forms) fuel start [[.nonterminal start]]
    source).map fun e => (e.result.map fun _ => ⟨e.observed.reverse⟩, e.source)

/-- The steps of a derivation, whether it ends well or not. -/
def derivationSteps (g : Grammar) (fuel : Nat) (start : Char) (limits : Limits) (source : σ) :
    Option (List DerivationStep) :=
  (g.expandFrom limits (fun steps s => s :: steps) fuel start [] source).map fun e =>
    e.observed.reverse

end Grammar

end CharGrammar
