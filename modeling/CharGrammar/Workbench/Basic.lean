import CharGrammar.Automaton.OfGrammar
import CharGrammar.Grammar.Render
import CharGrammar.RuleFile.Load
import CharGrammar.Scan
import CharGrammar.Words.Generator

namespace CharGrammar

/-- Where a grammar comes from. -/
inductive GrammarSource where
  | sample
  | text (text : String)
  | file (name : String) (contents : Except FileFault (List UInt8))
  | strings (nonterminals terminals : CharSet) (rules : List (Char × List String)) (start : Char)
  | parts (parts : Grammar.Parts)

/-- Why an operation gave no answer. -/
inductive Failure where
  | rules (faults : RuleFaults)
  | grammar (error : GrammarError)
  | automaton (error : AutomatonError)
  | scan (fault : Located Scan.Fault)
  | noGrammar
  | noRandom
  | unfinished

/-- Whether two failures are the same, where locations may be spelt differently. -/
def Failure.agrees : Failure → Failure → Bool
  | rules a, rules b => a.length == b.length && (a.zip b).all fun (x, y) => x.agrees y
  | grammar a, grammar b => a = b
  | automaton a, automaton b => a = b
  | scan a, scan b => a.agrees b
  | noGrammar, noGrammar | noRandom, noRandom | unfinished, unfinished => true
  | _, _ => false

/-- The grammar that a source gives. Only a loaded file is noted. -/
def GrammarSource.load : GrammarSource → Logged (Except Failure Grammar)
  | sample => ⟨.ok .sample, []⟩
  | text t => ⟨(RuleFile.parse t).mapError .rules, []⟩
  | file name contents =>
    let loaded := RuleFile.loadLogged name contents
    ⟨loaded.value.mapError .rules, loaded.events⟩
  | strings n t rules start => ⟨(Grammar.ofStrings n t rules start).mapError .grammar, []⟩
  | parts p => ⟨(Grammar.ofParts p).mapError .grammar, []⟩

/-- What is in use until it is replaced, and whether and what has been noted, the latest event
first. -/
structure Workbench where
  grammar? : Option Grammar := none
  automaton? : Option Automaton := none
  random? : Option (Counted Generator) := none
  noting : Bool := false
  journal : List Event := []

namespace Workbench

/-- An operation on a workbench. What it changed before it failed stays changed. -/
abbrev Operation := ExceptT Failure (StateM Workbench)

def note (events : List Event) : Operation Unit :=
  modify fun w => if w.noting then { w with journal := events.reverse ++ w.journal } else w

/-- The value of a logged answer, with its events noted. -/
def settle {α : Type} (answer : Logged (Except Failure α)) : Operation α := do
  note answer.events
  answer.value

def currentGrammar : Operation Grammar := do
  match (← get).grammar? with
  | some g => return g
  | none => throw .noGrammar

/-- Takes a new grammar into use, or stays with the current one. -/
def useGrammar : Option GrammarSource → Operation Grammar
  | none => currentGrammar
  | some source => do
    let g ← settle source.load
    modify fun w => { w with grammar? := some g }
    return g

/-- Builds the automaton of the current grammar and takes it into use. -/
def buildAutomaton (policy : OnConflict) : Operation Automaton := do
  let built := Automaton.ofGrammar (← currentGrammar) policy
  let a ← settle ⟨built.value.mapError .automaton, built.events⟩
  modify fun w => { w with automaton? := some a }
  return a

/-- What an operation says about the automaton that it is to use. -/
structure AutomatonChoice where
  direct? : Option Automaton.Parts := none
  source? : Option GrammarSource := none
  policy? : Option OnConflict := none

/-- Takes an automaton into use. It is built anew if the choice names a grammar or a policy, if
there is none yet, or on demand. -/
def useAutomaton (choice : AutomatonChoice) (anew : Bool) : Operation Automaton := do
  match choice.direct? with
  | some parts =>
    let a ← settle ⟨(Automaton.ofParts parts).mapError .automaton, []⟩
    modify fun w => { w with automaton? := some a }
    return a
  | none =>
    match (← get).automaton? with
    | some a =>
      if anew || choice.source?.isSome || choice.policy?.isSome then rebuild else return a
    | none => rebuild
where
  rebuild : Operation Automaton := do
    let _ ← useGrammar choice.source?
    buildAutomaton (choice.policy?.getD .reject)

def startRandom (g : Generator) : Operation Unit :=
  modify fun w => { w with random? := some { source := g } }

/-- Draws from the current random words. -/
def draw {α : Type} (f : Counted Generator → Option (α × Counted Generator)) : Operation α := do
  match (← get).random? with
  | none => throw .noRandom
  | some source =>
    match f source with
    | none => throw .unfinished
    | some (a, source) =>
      modify fun w => { w with random? := some source }
      return a

/-- The number of words drawn since the current random words were started. -/
def draws : Operation Nat := do
  match (← get).random? with
  | none => throw .noRandom
  | some source => return source.draws

end Workbench

end CharGrammar
