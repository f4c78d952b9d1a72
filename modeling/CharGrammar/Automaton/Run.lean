import CharGrammar.Automaton.Basic
import CharGrammar.Journal

namespace CharGrammar

/-- Why a run stopped. Positions are counted from 0. -/
inductive Outcome where
  | accepted
  | endedIn (state : Char)
  | outsideAlphabet (position : Nat) (symbol : Char)
  | noTransition (position : Nat) (state symbol : Char)
deriving DecidableEq, Repr

def Outcome.text : Outcome → String
  | accepted => "accepted"
  | endedIn q => s!"rejected, ended in non-accepting state `{q}`"
  | outsideAlphabet n t => s!"rejected, `{t}` at position {n} is not in the alphabet"
  | noTransition n q t => s!"rejected, no transition from `{q}` on `{t}` at position {n}"

instance : ToString Outcome := ⟨Outcome.text⟩

/-- The states visited while reading a word, the start state first. -/
structure Run where
  path : List Char
  outcome : Outcome
deriving DecidableEq, Repr

namespace Run

def isAccepted (r : Run) : Bool := r.outcome = .accepted

/-- Each move of a run as it is noted. -/
def events (r : Run) (word : List Char) : List Event :=
  List.zipWith (fun (state, target) symbol => .moved state symbol target)
    (r.path.zip r.path.tail) word

end Run

namespace Automaton

/-- Reads on from a state, with so many symbols already read. -/
def runFrom (a : Automaton) (state : Char) (position : Nat) : List Char → Run
  | [] => ⟨[state], if state ∈ a.accepting then .accepted else .endedIn state⟩
  | symbol :: rest =>
    if symbol ∉ a.alphabet then ⟨[state], .outsideAlphabet position symbol⟩
    else match a.next? state symbol with
      | none => ⟨[state], .noTransition position state symbol⟩
      | some target =>
        let r := a.runFrom target (position + 1) rest
        ⟨state :: r.path, r.outcome⟩

def run (a : Automaton) (word : List Char) : Run := a.runFrom a.start 0 word

/-- Whether the automaton ends in an accepting state after reading all of a word. -/
def accepts (a : Automaton) (word : List Char) : Bool := (a.run word).isAccepted

end Automaton

end CharGrammar
