import CharGrammar.Ordered.Table
import CharGrammar.Proposal

namespace CharGrammar

inductive AutomatonError where
  | conflict (state symbol existing replacement : Char)
  | startUnknown (start : Char)
  | stateUnknown (state : Char)
  | symbolUnknown (symbol : Char)
deriving DecidableEq, Repr

namespace AutomatonError

def message : AutomatonError → String
  | conflict q t a b => s!"Conflicting transitions from `{q}` on `{t}`: `{a}` and `{b}`"
  | startUnknown q => s!"Start state `{q}` is not a state"
  | stateUnknown q => s!"Unknown state `{q}`"
  | symbolUnknown t => s!"Symbol `{t}` is not in the alphabet"

instance : ToString AutomatonError := ⟨message⟩

end AutomatonError

/-- The target for a state and a symbol. -/
abbrev Transitions := Table (Char × Char) Char

namespace Automaton

/-- The five parts of an automaton, as proposed. -/
structure Parts where
  states : CharSet
  alphabet : CharSet
  transitions : Transitions
  start : Char
  accepting : CharSet
deriving DecidableEq

namespace Parts

/-- What a transition has to satisfy. -/
structure ValidTransition (p : Parts) (source symbol target : Char) : Prop where
  symbol_mem : symbol ∈ p.alphabet
  source_mem : source ∈ p.states
  target_mem : target ∈ p.states

structure Valid (p : Parts) : Prop where
  start_mem : p.start ∈ p.states
  accepting_subset : ∀ q ∈ p.accepting, q ∈ p.states
  transitions_valid : ∀ e ∈ p.transitions.entries, p.ValidTransition e.1.1 e.1.2 e.2

def transitionFault? (p : Parts) (source symbol target : Char) : Option AutomatonError :=
  if symbol ∉ p.alphabet then some (.symbolUnknown symbol)
  else if source ∉ p.states then some (.stateUnknown source)
  else if target ∉ p.states then some (.stateUnknown target)
  else none

/-- The first fault: the start state's, then the least unknown accepting state's, then the
transitions' in order. -/
def fault? (p : Parts) : Option AutomatonError :=
  if p.start ∉ p.states then some (.startUnknown p.start)
  else match p.accepting.toList.find? (· ∉ p.states) with
    | some q => some (.stateUnknown q)
    | none => p.transitions.entries.findSome? (fun e => p.transitionFault? e.1.1 e.1.2 e.2)

theorem transitionFault?_eq_none_iff {p : Parts} {source symbol target : Char} :
    p.transitionFault? source symbol target = none ↔ p.ValidTransition source symbol target := by
  unfold transitionFault?
  constructor
  · intro h
    split at h
    · cases h
    · next ha =>
      split at h
      · cases h
      · next hs =>
        split at h
        · cases h
        · next ht =>
          exact ⟨Decidable.not_not.mp ha, Decidable.not_not.mp hs, Decidable.not_not.mp ht⟩
  · intro hv
    simp [hv.symbol_mem, hv.source_mem, hv.target_mem]

theorem fault?_eq_none_iff {p : Parts} : p.fault? = none ↔ p.Valid := by
  unfold fault?
  split
  · next h => exact ⟨nofun, fun hv => absurd hv.start_mem h⟩
  · next hs =>
    split
    · next q hq =>
      have hm := List.mem_of_find?_eq_some hq
      have ht := List.find?_some hq
      exact ⟨nofun, fun hv => absurd (hv.accepting_subset q hm) (of_decide_eq_true ht)⟩
    · next hn =>
      simp only [List.findSome?_eq_none_iff, transitionFault?_eq_none_iff]
      constructor
      · intro h
        refine ⟨Decidable.not_not.mp hs, ?_, h⟩
        intro q hq
        apply Decidable.not_not.mp
        intro hne
        exact List.find?_eq_none.mp hn q hq (decide_eq_true hne)
      · intro hv
        exact hv.transitions_valid

end Parts

end Automaton

/-- An automaton is a valid proposal. -/
structure Automaton extends Automaton.Parts where
  valid : toParts.Valid
deriving DecidableEq

namespace Automaton

instance : Proposal Parts AutomatonError Automaton where
  Valid := Parts.Valid
  fault? := Parts.fault?
  fault?_eq_none_iff := Parts.fault?_eq_none_iff
  accept p h := ⟨p, h⟩
  parts := toParts
  parts_accept _ := rfl
  exists_accept a := ⟨a.valid, rfl⟩

abbrev ofParts (p : Parts) : Except AutomatonError Automaton := Proposal.check p

/-- The state that a state goes to on a symbol. -/
def next? (a : Automaton) (state symbol : Char) : Option Char :=
  a.transitions.get? (state, symbol)

theorem next?_mem_states {a : Automaton} {state symbol target : Char}
    (h : a.next? state symbol = some target) : target ∈ a.states :=
  (a.valid.transitions_valid _ (Table.get?_eq_some_iff.mp h)).target_mem

/-- The first four parts on a line each, and then a line for each transition. -/
def text (a : Automaton) : String :=
  String.join ([
    "Q  = \x7b" ++ CharSet.listing a.states ++ "\x7d\n",
    "Σ  = \x7b" ++ CharSet.listing a.alphabet ++ "\x7d\n",
    s!"q0 = {a.start}\n",
    "F  = \x7b" ++ CharSet.listing a.accepting ++ "\x7d\n"] ++
    a.transitions.entries.map fun ((source, symbol), target) =>
      s!"δ({source}, {symbol}) = {target}\n")

instance : ToString Automaton := ⟨text⟩

end Automaton

end CharGrammar
