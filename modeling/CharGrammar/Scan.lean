import CharGrammar.Located
import CharGrammar.Ordered.Set
import CharGrammar.Text

namespace CharGrammar.Scan

inductive Kind where
  | terminal (char : Char)
  | ending
deriving DecidableEq, Repr

def Kind.text : Kind → String
  | terminal c => s!"Terminal({c})"
  | ending => "Eof"

instance : ToString Kind := ⟨Kind.text⟩

/-- A token and the line and column where it begins, both counted from 1. -/
structure Token where
  kind : Kind
  value : String
  line : Nat
  column : Nat
deriving DecidableEq, Repr

inductive Fault where
  | unexpected (char : Char)
deriving DecidableEq, Repr

def Fault.message : Fault → String
  | unexpected c => s!"Unexpected character `{c}`"

instance : ToString Fault := ⟨Fault.message⟩

/-- Reads on from a line and a column. Blanks are no tokens, even if the alphabet has them. -/
def tokensFrom (alphabet : CharSet) (line column : Nat) :
    List Char → Except (Located Fault) (List Token)
  | [] => .ok [⟨.ending, "", line, column⟩]
  | c :: rest =>
    if c = '\n' then tokensFrom alphabet (line + 1) 1 rest
    else if Text.isBlank c then tokensFrom alphabet line (column + 1) rest
    else if c ∈ alphabet then
      (tokensFrom alphabet line (column + 1) rest).map
        (⟨.terminal c, String.singleton c, line, column⟩ :: ·)
    else .error ⟨.inText line column, .unexpected c⟩

/-- The tokens of a text, with an ending token last. -/
def tokens (alphabet : CharSet) (text : List Char) : Except (Located Fault) (List Token) :=
  tokensFrom alphabet 1 1 text

end CharGrammar.Scan
