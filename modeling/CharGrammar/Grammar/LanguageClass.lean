import CharGrammar.Grammar.Basic

namespace CharGrammar

/-- The classes from the widest to the narrowest. -/
inductive LanguageClass where
  | unrestricted
  | contextSensitive
  | contextFree
  | regular
deriving DecidableEq, Repr

namespace LanguageClass

def number : LanguageClass → Nat
  | unrestricted => 0
  | contextSensitive => 1
  | contextFree => 2
  | regular => 3

def name : LanguageClass → String
  | unrestricted => "unrestricted"
  | contextSensitive => "context-sensitive"
  | contextFree => "context-free"
  | regular => "regular"

def text (c : LanguageClass) : String := s!"Type {c.number} ({c.name})"

instance : ToString LanguageClass := ⟨text⟩

instance : Ord LanguageClass := ⟨fun a b => compare a.number b.number⟩

end LanguageClass

/-- The shapes `t` and `tN`. -/
def Alternative.isRightLinear : Alternative → Bool
  | [.terminal _] => true
  | [.terminal _, .nonterminal _] => true
  | _ => false

namespace Grammar

/-- The narrowest class whose condition all productions meet. A left-hand side is always one
symbol, so a production is noncontracting when its right-hand side has any symbol. -/
def languageClass (g : Grammar) : LanguageClass :=
  if g.productions.all (fun p => Alternative.isRightLinear p.2) then .regular
  else if g.productions.all (fun p => p.1 ∈ g.nonterminals) then .contextFree
  else if g.productions.all (fun p => 1 ≤ p.2.length) then .contextSensitive
  else .unrestricted

end Grammar

end CharGrammar
