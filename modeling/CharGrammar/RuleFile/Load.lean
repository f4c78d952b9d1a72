import CharGrammar.Journal
import CharGrammar.RuleFile.Definitions

namespace CharGrammar.RuleFile

/-- What a line comes to: a rule, a fault, or nothing. A line is `none` if it is not text. -/
def readLine? (file : String) (number : Nat) :
    Option (List Char) → Option (Except (Located RuleFault) (Located Rule))
  | none => some (.error ⟨.inFile file 0, .unreadable .notText⟩)
  | some line =>
    if statesRule line then
      match Rule.read line with
      | .ok rule => some (.ok ⟨.inFile file number, rule⟩)
      | .error fault => some (.error ⟨.inFile file number, fault⟩)
    else none

def readLines (file : String) (lines : List (Option (List Char))) :
    List (Except (Located RuleFault) (Located Rule)) :=
  (lines.zipIdx 1).filterMap fun (line, number) => readLine? file number line

def faultsOf (readings : List (Except (Located RuleFault) (Located Rule))) : RuleFaults :=
  readings.filterMap fun
    | .ok _ => none
    | .error fault => some fault

def rulesOf (readings : List (Except (Located RuleFault) (Located Rule))) : List (Located Rule) :=
  readings.filterMap fun
    | .ok rule => some rule
    | .error _ => none

/-- Faults of lines come before all others, and all of them are told. -/
def ofLines (file : String) (lines : List (Option (List Char))) : Except RuleFaults Grammar :=
  let readings := readLines file lines
  match faultsOf readings with
  | [] => grammarOf file (rulesOf readings)
  | faults => .error faults

def textLines (text : List Char) : List (List Char) := Text.lines '\n' '\r' text

/-- The lines of a file, each decoded by itself. -/
def byteLines (bytes : List UInt8) : List (Option (List Char)) :=
  (Text.lines 0x0A 0x0D bytes).map fun line =>
    (String.fromUTF8? line.toByteArray).map String.toList

def parse (text : String) : Except RuleFaults Grammar :=
  ofLines "" ((textLines text.toList).map some)

def load (file : String) (contents : Except FileFault (List UInt8)) : Except RuleFaults Grammar :=
  match contents with
  | .ok bytes => ofLines file (byteLines bytes)
  | .error fault => .error [⟨.inFile file 0, .unreadable fault⟩]

/-- Loads a file and notes it if it holds a grammar. -/
def loadLogged (file : String) (contents : Except FileFault (List UInt8)) :
    Logged (Except RuleFaults Grammar) :=
  match load file contents with
  | .ok g => ⟨.ok g, [.loaded g.rules.size file]⟩
  | .error faults => ⟨.error faults, []⟩

end CharGrammar.RuleFile
