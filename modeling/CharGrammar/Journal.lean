import CharGrammar.Symbol

namespace CharGrammar

inductive Level where
  | info
  | debug
  | trace
deriving DecidableEq, Repr

inductive Event where
  | loaded (rules : Nat) (file : String)
  | skipped (head : Char) (alternative : Alternative)
  | replaced (state symbol target former : Char)
  | built (states transitions : Nat)
  | moved (state symbol target : Char)
  | expanded (step : Nat) (nonterminal : Char) (alternative : Alternative) (form : Form)
  | generated (word : String) (start : Char)
deriving DecidableEq, Repr

namespace Event

def level : Event → Level
  | loaded .. | built .. => .info
  | skipped .. | replaced .. | generated .. => .debug
  | moved .. | expanded .. => .trace

def message : Event → String
  | loaded rules file => s!"loaded grammar with {rules} rules from {file}"
  | skipped head alternative =>
    let right := Form.text alternative
    s!"no transition for `{head} = {right}`: not right linear"
  | replaced state symbol target former =>
    s!"δ({state}, {symbol}) = {target} replaces {former}"
  | built states transitions =>
    s!"built automaton with {states} states and {transitions} transitions"
  | moved state symbol target => s!"δ({state}, {symbol}) = {target}"
  | expanded step nonterminal alternative form =>
    let right := Form.text alternative
    let result := Form.text form
    s!"step {step}: {nonterminal} -> {right} gives {result}"
  | generated word start => s!"generated `{word}` from `{start}`"

end Event

/-- A value together with the events on the way to it, in order. -/
structure Logged (α : Type) where
  value : α
  events : List Event

/-- Notes an event that came first. -/
def Logged.after {α : Type} (e : Event) (l : Logged α) : Logged α := ⟨l.value, e :: l.events⟩

end CharGrammar
