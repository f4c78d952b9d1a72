import CharGrammar.Text

namespace CharGrammar

/-- A line or column of 0 is unknown, and an empty file name stands for text that came from no
file. -/
structure Location where
  file : String := ""
  line : Nat := 0
  column : Nat := 0
deriving DecidableEq, Repr

namespace Location

/-- A place in text that came from no file. -/
def inText (line column : Nat) : Location := ⟨"", line, column⟩

def inFile (file : String) (line : Nat) : Location := ⟨file, line, 0⟩

/-- A column is shown only together with its line. -/
def text (l : Location) : String :=
  let name := if l.file = "" then "<input>" else l.file
  if l.line = 0 then name
  else if l.column = 0 then s!"{name}:{l.line}"
  else s!"{name}:{l.line}:{l.column}"

instance : ToString Location := ⟨text⟩

/-- Whether two locations are the same place. -/
def agrees (a b : Location) : Bool :=
  Text.samePath a.file b.file && a.line == b.line && a.column == b.column

end Location

structure Located (α : Type) where
  location : Location
  item : α
deriving DecidableEq, Repr

namespace Located

variable {ε : Type}

def agrees [DecidableEq ε] (a b : Located ε) : Bool :=
  a.location.agrees b.location && a.item = b.item

/-- A fault is shown in bold, behind its location in red. -/
def text [ToString ε] (e : Located ε) : String :=
  s!"\x1b[31;49;1m[{e.location}]\x1b[39;49;1m  {e.item}\x1b[0m"

instance [ToString ε] : ToString (Located ε) := ⟨text⟩

/-- One fault a line. -/
def report [ToString ε] (faults : List (Located ε)) : String :=
  "\n".intercalate (faults.map text)

end Located

end CharGrammar
