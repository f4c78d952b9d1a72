namespace CharGrammar.CommandLine

structure Options where
  file? : Option String := none
  start? : Option Char := none
  amount : Nat := 5
  seed? : Option UInt64 := none
  maxSteps? : Option Nat := none
  maxLength? : Option Nat := none
  lastWriteWins : Bool := false
  checks : List String := []
  derivation : Bool := false
  table : Bool := false
  tree? : Option String := none
  verbose : Bool := false

inductive Request where
  | version
  | run (options : Options)

/-- Options that take a value. -/
inductive Setting where
  | start
  | amount
  | seed
  | maxSteps
  | maxLength
  | check
  | tree
deriving DecidableEq

/-- Options that take none. -/
inductive Flag where
  | lastWriteWins
  | derivation
  | table
  | verbose
  | version
deriving DecidableEq

inductive Switch where
  | setting (setting : Setting)
  | flag (flag : Flag)
deriving DecidableEq

namespace Switch

def ofLong? : String → Option Switch
  | "start" => some (.setting .start)
  | "amount" => some (.setting .amount)
  | "seed" => some (.setting .seed)
  | "max-steps" => some (.setting .maxSteps)
  | "max-length" => some (.setting .maxLength)
  | "check" => some (.setting .check)
  | "tree" => some (.setting .tree)
  | "last-write-wins" => some (.flag .lastWriteWins)
  | "derivation" => some (.flag .derivation)
  | "table" => some (.flag .table)
  | "verbose" => some (.flag .verbose)
  | "version" => some (.flag .version)
  | _ => none

def ofShort? : Char → Option Switch
  | 's' => some (.setting .start)
  | 'n' => some (.setting .amount)
  | 'c' => some (.setting .check)
  | 'v' => some (.flag .verbose)
  | 'V' => some (.flag .version)
  | _ => none

end Switch

/-- A number below a bound in decimal digits, which a plus sign may precede. -/
def readNumber? (bound : Nat) (text : List Char) : Option Nat :=
  let digits := if text.head? = some '+' then text.tail else text
  if digits ≠ [] ∧ digits.all Char.isDigit then
    let n := digits.foldl (fun n d => 10 * n + (d.toNat - '0'.toNat)) 0
    if n < bound then some n else none
  else none

/-- Like `readNumber?`, but zero may have a minus sign. -/
def readSigned? (bound : Nat) (text : List Char) : Option Nat :=
  match text with
  | '-' :: digits => if digits ≠ [] ∧ digits.all (· = '0') then some 0 else none
  | _ => readNumber? bound text

namespace Options

/-- Sets an option to the value that a text stands for. -/
def assign? (o : Options) (setting : Setting) (value : List Char) : Option Options :=
  match setting with
  | .start =>
    match value with
    | [c] => some { o with start? := some c }
    | _ => none
  | .amount => (readSigned? UInt32.size value).map fun n => { o with amount := n }
  | .seed => (readNumber? UInt64.size value).map fun n => { o with seed? := some n.toUInt64 }
  | .maxSteps => (readNumber? UInt64.size value).map fun n => { o with maxSteps? := some n }
  | .maxLength => (readNumber? UInt64.size value).map fun n => { o with maxLength? := some n }
  | .check => some { o with checks := o.checks ++ [String.ofList value] }
  | .tree => some { o with tree? := some (String.ofList value) }

/-- The version is asked for at once and is no option of a run. -/
def raise (o : Options) : Flag → Request
  | .lastWriteWins => .run { o with lastWriteWins := true }
  | .derivation => .run { o with derivation := true }
  | .table => .run { o with table := true }
  | .verbose => .run { o with verbose := true }
  | .version => .version

end Options

/-- The options read so far and the switches that they came from. -/
structure Progress where
  options : Options := {}
  given : List Switch := []

/-- What reading an argument leads to. -/
inductive Step where
  | next (progress : Progress)
  | wantsValue (progress : Progress) (setting : Setting)
  | filesOnly (progress : Progress)
  | version
  | refused

namespace Progress

/-- Takes the file, which only one argument may name. -/
def takeFile (p : Progress) (name : String) : Step :=
  if name = "" ∨ p.options.file?.isSome then .refused
  else .next { p with options := { p.options with file? := some name } }

/-- Takes a setting's value. Only checks may be given more than once. -/
def takeValue (p : Progress) (setting : Setting) (value : List Char) : Step :=
  if .setting setting ∈ p.given ∧ setting ≠ .check then .refused
  else match p.options.assign? setting value with
    | some options => .next ⟨options, .setting setting :: p.given⟩
    | none => .refused

def takeFlag (p : Progress) (flag : Flag) : Step :=
  if .flag flag ∈ p.given then .refused
  else match p.options.raise flag with
    | .run options => .next ⟨options, .flag flag :: p.given⟩
    | .version => .version

/-- The part of an argument after two dashes: a name, or a name and a value. -/
def takeLong (p : Progress) (body : List Char) : Step :=
  let name := body.takeWhile (· ≠ '=')
  let attached? := (body.dropWhile (· ≠ '=')).tail?
  match Switch.ofLong? (String.ofList name), attached? with
  | some (.setting setting), some value => p.takeValue setting value
  | some (.setting setting), none => .wantsValue p setting
  | some (.flag flag), none => p.takeFlag flag
  | _, _ => .refused

/-- The part of an argument after one dash: flags, and at last perhaps a setting, whose value may
follow at once. -/
def takeShort (p : Progress) : List Char → Step
  | [] => .next p
  | c :: rest =>
    match Switch.ofShort? c with
    | some (.setting setting) =>
      match rest with
      | [] => .wantsValue p setting
      | '=' :: value => p.takeValue setting value
      | value => p.takeValue setting value
    | some (.flag flag) =>
      match p.takeFlag flag with
      | .next p => p.takeShort rest
      | step => step
    | none => .refused

def take (p : Progress) (argument : String) : Step :=
  match argument.toList with
  | ['-', '-'] => .filesOnly p
  | '-' :: '-' :: body => p.takeLong body
  | ['-'] => p.takeFile argument
  | '-' :: body => p.takeShort body
  | _ => p.takeFile argument

/-- Reads arguments that are all files. -/
def readFiles (p : Progress) : List String → Option Request
  | [] => some (.run p.options)
  | argument :: rest =>
    match p.takeFile argument with
    | .next p => p.readFiles rest
    | _ => none

/-- Whether an argument may be the value of the setting before it. -/
def isValue (argument : String) : Bool :=
  argument.toList.head? ≠ some '-' ∨ argument = "-"

/-- Reads arguments from left to right, the first perhaps being the value that a setting wants. -/
def read (p : Progress) (wanted? : Option Setting) : List String → Option Request
  | [] => if wanted?.isSome then none else some (.run p.options)
  | argument :: rest =>
    let step :=
      match wanted? with
      | some setting =>
        if isValue argument then p.takeValue setting argument.toList else .refused
      | none => p.take argument
    match step with
    | .next p => p.read none rest
    | .wantsValue p setting => p.read (some setting) rest
    | .filesOnly p => p.readFiles rest
    | .version => some .version
    | .refused => none

end Progress

/-- What the arguments ask for, unless they are misused. -/
def Request.ofArguments? (arguments : List String) : Option Request :=
  Progress.read {} none arguments

end CharGrammar.CommandLine
