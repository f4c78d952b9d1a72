import CharGrammar.Grammar.Basic
import CharGrammar.Text

namespace CharGrammar

/-- A terminal that a rule file would read as something else has to stand in quotes. The quote
itself cannot be written. -/
def mustQuote (c : Char) : Bool :=
  c.isUpper || Text.isBlank c || c = '=' || c = '|'

def Symbol.render : Symbol → List Char
  | .terminal c => if mustQuote c then ['"', c, '"'] else [c]
  | .nonterminal c => [c]

def Alternative.render (alternative : Alternative) : List Char :=
  alternative.flatMap Symbol.render

def Body.render (body : Body) : List Char :=
  [' ', '|', ' '].intercalate (body.map Alternative.render)

/-- A rule as a line with its line end. -/
def renderRule (rule : Char × Body) : List Char :=
  [rule.1, ' ', '=', ' '] ++ Body.render rule.2 ++ ['\n']

namespace Grammar

/-- The rule of the start symbol first and the others in order. -/
def orderedRules (g : Grammar) : List (Char × Body) :=
  g.rules.entries.filter (·.1 = g.start) ++ g.rules.entries.filter (·.1 ≠ g.start)

def render (g : Grammar) : List Char := g.orderedRules.flatMap renderRule

def text (g : Grammar) : String := String.ofList g.render

instance : ToString Grammar := ⟨text⟩

end Grammar

end CharGrammar
