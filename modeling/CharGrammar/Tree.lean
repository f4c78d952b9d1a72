import CharGrammar.Scan

namespace CharGrammar

inductive Node where
  | program (children : List Node)
  | block (children : List Node)
  | literal (kind : Scan.Kind) (value : String)
deriving Repr

namespace Node

/-- The tokens before the ending, in one block of a program. -/
def ofTokens (tokens : List Scan.Token) : Node :=
  .program [.block ((tokens.takeWhile (·.kind ≠ .ending)).map fun t => .literal t.kind t.value)]

/-- A line at a depth of nesting, which counts for two spaces. -/
def indented (depth : Nat) (line : List Char) : List Char :=
  List.replicate (2 * depth) ' ' ++ line ++ ['\n']

def literalLine (kind : Scan.Kind) (value : String) : List Char :=
  "Literal: ".toList ++ kind.text.toList ++ " => '".toList ++ value.toList ++ "'".toList

mutual

def renderAt (depth : Nat) : Node → List Char
  | program children => indented depth "Program:".toList ++ renderAll (depth + 1) children
  | block children => indented depth "Block:".toList ++ renderAll (depth + 1) children
  | literal kind value => indented depth (literalLine kind value)

def renderAll (depth : Nat) : List Node → List Char
  | [] => []
  | node :: rest => renderAt depth node ++ renderAll depth rest

end

/-- Each node on a line of its own, its children below it and further in. -/
def render (node : Node) : List Char := renderAt 0 node

def text (node : Node) : String := String.ofList node.render

instance : ToString Node := ⟨text⟩

end Node

end CharGrammar
