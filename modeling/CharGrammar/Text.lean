namespace CharGrammar.Text

/-- The code points with the Unicode property White_Space, as ranges with both ends included. -/
def blankRanges : List (Nat × Nat) :=
  [(0x09, 0x0D), (0x20, 0x20), (0x85, 0x85), (0xA0, 0xA0), (0x1680, 0x1680), (0x2000, 0x200A),
    (0x2028, 0x2029), (0x202F, 0x202F), (0x205F, 0x205F), (0x3000, 0x3000)]

def isBlank (c : Char) : Bool :=
  blankRanges.any fun (low, high) => low ≤ c.toNat && c.toNat ≤ high

/-- A text without its leading blanks. -/
def dropBlanks (text : List Char) : List Char := text.dropWhile isBlank

/-- The steps of a path. A leading slash is a step, and so is a single dot at the very beginning.
Empty steps and other single dots are left out. -/
def pathSteps (path : String) : List (List Char) :=
  match path.toList.splitOn '/' with
  | [] => []
  | first :: rest =>
    let inner := rest.filter fun step => step ≠ [] ∧ step ≠ ['.']
    if path.toList.head? = some '/' then ['/'] :: inner
    else if first = [] then inner
    else first :: inner

/-- Whether two paths name the same file by their spelling alone. -/
def samePath (a b : String) : Bool := pathSteps a = pathSteps b

section Lines

variable {α : Type} [DecidableEq α]

def dropReturn (ret : α) (line : List α) : List α :=
  if line.getLast? = some ret then line.dropLast else line

/-- Every piece but the last is closed by a line end, and a return just before that is no part of
the line. The last piece is a line only if there is something in it. -/
def closeLines (ret : α) : List (List α) → List (List α)
  | [] => []
  | [last] => if last = [] then [] else [last]
  | line :: next :: rest => dropReturn ret line :: closeLines ret (next :: rest)

def lines (lineEnd ret : α) (text : List α) : List (List α) :=
  closeLines ret (text.splitOn lineEnd)

end Lines

end CharGrammar.Text
