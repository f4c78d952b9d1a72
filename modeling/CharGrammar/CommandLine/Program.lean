import CharGrammar.Automaton.OfGrammar
import CharGrammar.Automaton.Run
import CharGrammar.CommandLine.Options
import CharGrammar.Derivation.Generate
import CharGrammar.Grammar.LanguageClass
import CharGrammar.Grammar.Render
import CharGrammar.RuleFile.Load
import CharGrammar.Tree
import CharGrammar.Words.Generator

namespace CharGrammar.CommandLine

/-- The exit code and the texts that a program leaves. -/
structure Report where
  code : UInt32
  stdout : String := ""
  stderr : String := ""
  events : List Event := []

inductive Stop where
  | failed (message : String)
  | unfinished

/-- What has been printed and noted so far. -/
structure Output where
  printed : String := ""
  events : List Event := []

/-- Printing goes on until a failure. What was printed before it stays. -/
abbrev Printing := ExceptT Stop (StateM Output)

def print (text : String) : Printing Unit :=
  modify fun o => { o with printed := o.printed ++ text }

def printLine (text : String) : Printing Unit := print (text ++ "\n")

def note (events : List Event) : Printing Unit :=
  modify fun o => { o with events := o.events ++ events }

/-- A failure with what was being done, and its cause with every line set in. -/
def failIn {α : Type} (context cause : String) : Printing α :=
  let lines := (cause.toList.splitOn '\n').map fun line => "    " ++ String.ofList line
  let text := "\n".intercalate lines
  throw (.failed s!"{context}\n\nCaused by:\n{text}")

def sampleWords : List String := ["dab", "dabc", "dcac", "dbac", "dca"]

/-- The grammar of a file, or the sample if there is none. -/
def loadGrammar (file? : Option String) (contents : String → Except FileFault (List UInt8)) :
    Printing Grammar := do
  match file? with
  | none => return .sample
  | some file =>
    let loaded := RuleFile.loadLogged file (contents file)
    note loaded.events
    match loaded.value with
    | .ok g => return g
    | .error faults => failIn s!"failed to load grammar from {file}" (Located.report faults)

/-- The line of a generated word, and the random words left. -/
def wordLine (fuel : Nat) (g : Grammar) (o : Options) (random : Generator) :
    Printing (String × Generator) := do
  let start := o.start?.getD g.start
  let limits : Limits := ⟨o.maxSteps?, o.maxLength?⟩
  if o.derivation then
    match g.derive fuel start limits random with
    | some (.ok d, random) => return (d.text, random)
    | some (.error e, _) => throw (.failed e.message)
    | none => throw .unfinished
  else
    match g.generate fuel start limits random with
    | some (.ok word, random) =>
      let text := String.ofList word
      note [.generated text start]
      return (text, random)
    | some (.error e, _) => throw (.failed e.message)
    | none => throw .unfinished

def printWords (fuel : Nat) (g : Grammar) (o : Options) : Nat → Generator → Printing Unit
  | 0, _ => return
  | n + 1, random => do
    let (line, random) ← wordLine fuel g o random
    printLine line
    printWords fuel g o n random

/-- Prints what the options ask for. The entropy counts as the seed if none is given. -/
def printAll (fuel : Nat) (contents : String → Except FileFault (List UInt8)) (entropy : UInt64)
    (o : Options) : Printing Unit := do
  let g ← loadGrammar o.file? contents
  printLine s!"Grammar:\n{g}"
  printLine s!"Classification: {g.languageClass}"
  printLine "\nGenerated strings:"
  printWords fuel g o o.amount (.ofSeed (o.seed?.getD entropy))
  let built := Automaton.ofGrammar g (if o.lastWriteWins then .replace else .reject)
  note built.events
  match built.value with
  | .error e => failIn "failed to build automaton" e.message
  | .ok a =>
    if o.table then
      printLine s!"\nAutomaton:\n{a}"
    let checks := if o.checks.isEmpty && o.file?.isNone then sampleWords else o.checks
    if !checks.isEmpty then
      printLine "\nChecking language membership:"
    for input in checks do
      let run := a.run input.toList
      printLine s!"{input} belongs to language: {run.isAccepted} ({run.outcome})"
    if let some text := o.tree? then
      match Scan.tokens g.terminals text.toList with
      | .error fault => failIn "failed to scan input" fault.text
      | .ok tokens => print s!"\n{Node.ofTokens tokens}"

/-- The report of a run of the program. `none` means that the fuel ran out before it ended. -/
def report? (fuel : Nat) (contents : String → Except FileFault (List UInt8)) (entropy : UInt64)
    (arguments : List String) : Option Report :=
  match Request.ofArguments? arguments with
  | none => some { code := 2 }
  | some .version => some { code := 0, stdout := "regula 0.1.0\n" }
  | some (.run o) =>
    let (ending, output) := (printAll fuel contents entropy o).run {}
    let events := if o.verbose then output.events else []
    match ending with
    | .ok _ => some { code := 0, stdout := output.printed, events }
    | .error (.failed message) =>
      some { code := 1, stdout := output.printed, stderr := s!"Error: {message}\n", events }
    | .error .unfinished => none

end CharGrammar.CommandLine
