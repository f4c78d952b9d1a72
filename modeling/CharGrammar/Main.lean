import CharGrammar.CommandLine.Program

namespace CharGrammar.CommandLine

/-- The fault of an error number, which may come with its sign changed. -/
def systemFault (code : UInt32) (reason : String) : FileFault :=
  match min code (0 - code) with
  | 2 => .missing
  | 20 => .notFolder
  | 21 => .isFolder
  | 36 => .nameTooLong
  | number => .other s!"{reason} (os error {number})"

/-- That a path leads to a folder is told once, and not for each line that cannot be read. -/
def readContents (file : String) : IO (Except FileFault (List UInt8)) := do
  try
    return .ok (← IO.FS.readBinFile file).toList
  catch
    | .noFileOrDirectory _ code reason
    | .permissionDenied _ code reason
    | .inappropriateType _ code reason
    | .invalidArgument _ code reason
    | .noSuchThing _ code reason
    | .otherError code reason => return .error (systemFault code reason)
    | e => return .error (.other (toString e))

def freshSeed : IO UInt64 := do
  let bytes ← IO.getRandomBytes 8
  return bytes.toList.foldl (fun seed byte => seed * 256 + byte.toUInt64) 0

def levelName : Level → String
  | .info => "INFO"
  | .debug => "DEBUG"
  | .trace => "TRACE"

/-- Debug events are shown and finer ones are not. -/
def showEvents (events : List Event) : IO Unit := do
  for e in events do
    if e.level ≠ .trace then
      let name := levelName e.level
      IO.eprintln s!"[{name}] {e.message}"

def run (arguments : List String) : IO UInt32 := do
  let contents ← match Request.ofArguments? arguments with
    | some (.run { file? := some file, .. }) => readContents file
    | _ => pure (.error .missing)
  match report? Derivation.patience (fun _ => contents) (← freshSeed) arguments with
  | none => return 1
  | some report =>
    IO.print report.stdout
    showEvents report.events
    IO.eprint report.stderr
    return report.code

end CharGrammar.CommandLine

def main (arguments : List String) : IO UInt32 := CharGrammar.CommandLine.run arguments
