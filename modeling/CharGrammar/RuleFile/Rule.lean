import CharGrammar.RuleFile.Token
import CharGrammar.Text

namespace CharGrammar.RuleFile

structure Rule where
  head : Char
  body : Body
deriving DecidableEq, Repr

def Token.symbol? : Token → Except RuleFault Symbol
  | .equals => .error .unexpectedEquals
  | .bar => .error .strayBar
  | .symbol s => .ok s

/-- The alternative that a piece between bars states. -/
def readAlternative (tokens : List Token) : Except RuleFault Alternative :=
  if tokens = [] then .error .emptyAlternative else tokens.mapM Token.symbol?

def readBody (tokens : List Token) : Except RuleFault Body :=
  (tokens.splitOn .bar).mapM readAlternative

namespace Rule

def ofTokens : List Token → Except RuleFault Rule
  | [] => .error .blankRule
  | .symbol (.nonterminal head) :: .equals :: rest => (readBody rest).map (⟨head, ·⟩)
  | .symbol (.nonterminal _) :: _ => .error .missingEquals
  | _ :: _ => .error .missingHead

def read (line : List Char) : Except RuleFault Rule := do
  ofTokens (← Token.lex line)

end Rule

/-- A line states a rule unless it is blank or its first character that is not blank begins a
comment. -/
def statesRule (line : List Char) : Bool :=
  match Text.dropBlanks line with
  | [] => false
  | c :: _ => c ≠ ';'

end CharGrammar.RuleFile
