import CharGrammar.RuleFile.Fault
import CharGrammar.Text

namespace CharGrammar.RuleFile

inductive Token where
  | equals
  | bar
  | symbol (symbol : Symbol)
deriving DecidableEq, Repr

namespace Token

/-- What a character stands for outside quotes, where blanks stand for nothing. -/
def ofChar? (c : Char) : Option Token :=
  if c = '=' then some .equals
  else if c = '|' then some .bar
  else if Text.isBlank c then none
  else if c.isUpper then some (.symbol (.nonterminal c))
  else some (.symbol (.terminal c))

/-- Reads on inside or outside quotes. Every character inside is a terminal. -/
def lexFrom (quoted : Bool) : List Char → Except RuleFault (List Token)
  | [] => if quoted then .error .unclosedQuote else .ok []
  | c :: rest =>
    if c = '"' then lexFrom (!quoted) rest
    else if quoted then (lexFrom true rest).map (.symbol (.terminal c) :: ·)
    else (lexFrom false rest).map ((ofChar? c).toList ++ ·)

def lex (line : List Char) : Except RuleFault (List Token) := lexFrom false line

end Token

end CharGrammar.RuleFile
