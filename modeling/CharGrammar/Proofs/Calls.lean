import Mathlib.Data.List.Forall2
import CharGrammar.Proofs.Expansions

namespace CharGrammar

inductive Call where
  | word (start : Char) (limits : Limits)
  | derivation (start : Char) (limits : Limits)

/-- Whether a call became another: it stayed, or now asks for the derivation of its word. -/
inductive Call.Became : Call → Call → Prop
  | same (call : Call) : Became call call
  | derivation (start : Char) (limits : Limits) :
      Became (.word start limits) (.derivation start limits)

/-- What a call is answered with. -/
inductive Drawn where
  | word (chars : List Char)
  | derivation (d : Derivation)

/-- Outcomes that are the same, except that one may be a word and the other its derivation. -/
inductive SameOutcome : Except DerivationError Drawn → Except DerivationError Drawn → Prop
  | same (outcome : Except DerivationError Drawn) : SameOutcome outcome outcome
  | derivation (d : Derivation) : SameOutcome (.ok (.word d.result)) (.ok (.derivation d))

/-- Two calls came out the same, and as many words had been drawn after the one as after the
other. -/
structure CameOutAlike {σ : Type} (a b : Except DerivationError Drawn × Counted σ) : Prop where
  outcome : SameOutcome a.1 b.1
  draws : a.2.draws = b.2.draws
  source : a.2.source = b.2.source

namespace Grammar

variable {σ : Type} [WordSource σ] {g : Grammar} {fuel : Nat} {call call' : Call}
  {calls calls' : List Call} {source : σ}

/-- The outcome of a call, and the source that it leaves. -/
def answer (g : Grammar) (fuel : Nat) (call : Call) (source : σ) :
    Option (Except DerivationError Drawn × σ) :=
  match call with
  | .word start limits =>
    (g.generate fuel start limits source).map fun (result, rest) => (result.map .word, rest)
  | .derivation start limits =>
    (g.derive fuel start limits source).map fun (result, rest) => (result.map .derivation, rest)

/-- The answers to calls, each made where the one before has left the source. After a call that
does not stop there are no others. -/
def answers (g : Grammar) (fuel : Nat) : List Call → σ → List (Except DerivationError Drawn × σ)
  | [], _ => []
  | call :: calls, source =>
    match g.answer fuel call source with
    | none => []
    | some (outcome, rest) => (outcome, rest) :: g.answers fuel calls rest

/-- A call that became another stops where it did, with the same outcome and the same source. -/
theorem answer_became (h : call.Became call') :
    Option.Rel (fun a b => SameOutcome a.1 b.1 ∧ a.2 = b.2) (g.answer fuel call source)
      (g.answer fuel call' source) := by
  cases h with
  | same =>
    cases g.answer fuel call source with
    | none => exact .none
    | some a => exact .some ⟨.same a.1, rfl⟩
  | derivation start limits =>
    rw [answer, answer, generate_eq, derive_eq, Option.map_map, Option.map_map]
    cases he : g.expandSteps limits fuel start source with
    | none => exact .none
    | some e =>
      obtain ⟨result, taken, rest⟩ := e
      refine .some ⟨?_, rfl⟩
      cases result with
      | error fault => exact .same _
      | ok form =>
        -- The last form that the derivation keeps is the one whose characters are the word.
        have hs := start_mem_of_expandSteps he rfl
        obtain ⟨last, hd, hends⟩ := expandSteps_derives he hs
        cases hends
        have ho := SameOutcome.derivation ⟨formsOf [.nonterminal start] taken.reverse⟩
        rw [hd.result_eq] at ho
        exact ho

/-- Words and derivations come from the same choices: of calls made one after the other, any that
ask for a word may ask for its derivation instead, and every call comes out the same, with as many
words drawn. -/
theorem answers_became (g : Grammar) (fuel : Nat) (source : Counted σ)
    (h : List.Forall₂ Call.Became calls calls') :
    List.Forall₂ CameOutAlike (g.answers fuel calls source) (g.answers fuel calls' source) := by
  induction h generalizing source with
  | nil => exact .nil
  | @cons call call' _ _ hcall _ ih =>
    have ha : Option.Rel _ (g.answer fuel call source) (g.answer fuel call' source) :=
      answer_became hcall
    rw [answers, answers]
    generalize g.answer fuel call source = a, g.answer fuel call' source = b at ha ⊢
    cases ha with
    | none => exact .nil
    | @some a b hab =>
      obtain ⟨outcome, rest⟩ := a
      obtain ⟨outcome', rest'⟩ := b
      obtain ⟨ho, hs⟩ := hab
      cases hs
      exact .cons ⟨ho, rfl, rfl⟩ (ih rest)

theorem sample_answers_became :
    (sample.answers 4
        [.word 'S' ⟨none, some 1⟩, .word 'Z' .unbounded, .word 'S' .unbounded]
        (Counted.mk (Generator.given [0, 0, 0x80000000]) 0)).map
      (fun a => (a.2.draws, a.1.toOption.isSome)) = [(1, false), (1, false), (3, true)] ∧
    List.Forall₂ CameOutAlike
      (sample.answers 4
        [.word 'S' ⟨none, some 1⟩, .word 'Z' .unbounded, .word 'S' .unbounded]
        (Counted.mk (Generator.given [0, 0, 0x80000000]) 0))
      (sample.answers 4
        [.derivation 'S' ⟨none, some 1⟩, .word 'Z' .unbounded, .derivation 'S' .unbounded]
        (Counted.mk (Generator.given [0, 0, 0x80000000]) 0)) := by
  refine ⟨rfl, answers_became sample 4 _ ?_⟩
  exact .cons (.derivation _ _) (.cons (.same _) (.cons (.derivation _ _) .nil))

end Grammar

end CharGrammar
