import CharGrammar.Automaton.Run
import CharGrammar.Derivation.Generate
import CharGrammar.Tree
import CharGrammar.Workbench.Basic

namespace CharGrammar.Workbench

/-- How a character is declared, and its alternatives. -/
structure Entry where
  isNonterminal : Bool
  isTerminal : Bool
  alternatives? : Option Body

def lookUp (source? : Option GrammarSource) (chars : List Char) : Operation (List Entry) := do
  let g ← useGrammar source?
  return chars.map fun c => ⟨c ∈ g.nonterminals, c ∈ g.terminals, g.alternatives? c⟩

/-- A grammar's text and what it reads back as, which is taken into use if it is a grammar. -/
structure Reloading where
  text : String
  agrees : Bool
  result : Except RuleFaults Grammar

def reload (source? : Option GrammarSource) : Operation Reloading := do
  let g ← useGrammar source?
  let text := g.text
  match RuleFile.parse text with
  | .ok h =>
    modify fun w => { w with grammar? := some h }
    return ⟨text, h = g, .ok h⟩
  | .error faults => return ⟨text, false, .error faults⟩

/-- Whether two sources give the same, and if both give grammars, whether their automata are the
same. -/
def compareSources (a b : GrammarSource) (policy : OnConflict) :
    Operation (Bool × Option Bool) := do
  let left := a.load
  let right := b.load
  note (left.events ++ right.events)
  match left.value, right.value with
  | .ok g, .ok h =>
    let m := Automaton.ofGrammar g policy
    let n := Automaton.ofGrammar h policy
    note (m.events ++ n.events)
    let same :=
      match m.value, n.value with
      | .ok x, .ok y => decide (x = y)
      | .error x, .error y => decide (x = y)
      | _, _ => false
    return (g = h, some same)
  | .error x, .error y => return (x.agrees y, none)
  | _, _ => return (false, none)

/-- Whether an automaton accepts a word, with its moves noted. -/
def check (a : Automaton) (word : List Char) : Operation Bool := do
  note ((a.run word).events word)
  return a.accepts word

/-- Each input's run, and whether it is accepted when read once more. -/
def runAll (choice : AutomatonChoice) (inputs : List (List Char)) :
    Operation (List (Run × Bool)) := do
  let a ← useAutomaton choice false
  inputs.mapM fun input => do
    let r := a.run input
    note (r.events input)
    return (r, ← check a input)

/-- What an operation says about the words that it is to derive. -/
structure Drawing where
  source? : Option GrammarSource := none
  random? : Option Generator := none
  start? : Option Char := none
  limits : Limits := {}
  count : Nat := 1

/-- Notes the steps that a derivation from the current random words will take. -/
def noteSteps (g : Grammar) (start : Char) (limits : Limits) : Operation Unit := do
  let w ← get
  if w.noting then
    if let some source := w.random? then
      if let some steps := g.derivationSteps Derivation.patience start limits source then
        note (steps.map DerivationStep.event)

def generateOne (g : Grammar) (start : Char) (limits : Limits) :
    Operation (Except DerivationError (List Char)) := do
  noteSteps g start limits
  let result ← draw (g.generate Derivation.patience start limits)
  if let .ok word := result then
    note [.generated (String.ofList word) start]
  return result

def deriveOne (g : Grammar) (start : Char) (limits : Limits) :
    Operation (Except DerivationError Derivation) := do
  noteSteps g start limits
  draw (g.derive Derivation.patience start limits)

def repeated {α : Type} (operation : Operation α) : Nat → Operation (List α)
  | 0 => return []
  | n + 1 => do return (← operation) :: (← repeated operation n)

/-- The results of a drawing, one after the other, and the number of words drawn. What they need
is prepared before the random words are started. -/
def perform {α β : Type} (drawing : Drawing) (prepare : Operation β)
    (one : β → Grammar → Char → Limits → Operation α) : Operation (List α × Nat) := do
  let g ← useGrammar drawing.source?
  let prepared ← prepare
  if let some random := drawing.random? then
    startRandom random
  let start := drawing.start?.getD g.start
  let results ← repeated (one prepared g start drawing.limits) drawing.count
  return (results, ← draws)

def generate (drawing : Drawing) :
    Operation (List (Except DerivationError (List Char)) × Nat) :=
  perform drawing (pure ()) fun _ => generateOne

def derive (drawing : Drawing) : Operation (List (Except DerivationError Derivation) × Nat) :=
  perform drawing (pure ()) fun _ => deriveOne

/-- Generated words, each with whether the automaton of the grammar accepts it. -/
def generateChecked (drawing : Drawing) (policy : OnConflict) :
    Operation (List (Except DerivationError (List Char × Bool)) × Nat) :=
  perform drawing (buildAutomaton policy) fun a g start limits => do
    match ← generateOne g start limits with
    | .ok word => return .ok (word, ← check a word)
    | .error e => return .error e

/-- The tokens of a text over an alphabet, which is the current grammar's unless given. -/
def scan (alphabet? : Option CharSet) (source? : Option GrammarSource) (text : List Char) :
    Operation (List Scan.Token) := do
  let alphabet ← match alphabet? with
    | some alphabet => pure alphabet
    | none => do pure (← useGrammar source?).terminals
  settle ⟨(Scan.tokens alphabet text).mapError .scan, []⟩

def scanTree (alphabet? : Option CharSet) (source? : Option GrammarSource) (text : List Char) :
    Operation Node := do
  return .ofTokens (← scan alphabet? source? text)

end CharGrammar.Workbench
