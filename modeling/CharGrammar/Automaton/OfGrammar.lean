import CharGrammar.Automaton.Basic
import CharGrammar.Grammar.Basic
import CharGrammar.Journal

namespace CharGrammar

/-- What to do when a production asks for a second target on a state and a symbol. -/
inductive OnConflict where
  | reject
  | replace
deriving DecidableEq, Repr

namespace Automaton

/-- The symbol and the target of the transition that an alternative of `head` gives. -/
def edge? (head : Char) : Alternative → Option (Char × Char)
  | [.terminal t, .nonterminal n] => some (t, n)
  | [.terminal t] => some (t, head)
  | _ => none

/-- Adds the transitions of productions, in order. -/
def connect (policy : OnConflict) (transitions : Transitions) :
    List (Char × Alternative) → Logged (Except AutomatonError Transitions)
  | [] => ⟨.ok transitions, []⟩
  | (head, alternative) :: rest =>
    match edge? head alternative with
    | none => (connect policy transitions rest).after (.skipped head alternative)
    | some (symbol, target) =>
      let added := connect policy (transitions.insert (head, symbol) target) rest
      match transitions.get? (head, symbol) with
      | none => added
      | some former =>
        if former = target then added
        else match policy with
          | .reject => ⟨.error (.conflict head symbol former target), []⟩
          | .replace => added.after (.replaced head symbol target former)

/-- The automaton of a right linear grammar. All states but the start symbol accept, whether or not
a derivation can end there. -/
def ofGrammar (g : Grammar) (policy : OnConflict) :
    Logged (Except AutomatonError Automaton) :=
  let connected := connect policy ∅ g.productions
  let built := connected.value.bind fun transitions =>
    ofParts ⟨g.nonterminals, g.terminals, transitions, g.start,
      g.nonterminals.filter (· ≠ g.start)⟩
  match built with
  | .error e => ⟨.error e, connected.events⟩
  | .ok a => ⟨.ok a, connected.events ++ [.built a.states.size a.transitions.size]⟩

end Automaton

end CharGrammar
