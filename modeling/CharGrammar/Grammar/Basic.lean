import CharGrammar.Ordered.Table
import CharGrammar.Proposal
import CharGrammar.Symbol

namespace CharGrammar

inductive GrammarError where
  | startUndeclared (start : Char)
  | sharedSymbol (symbol : Char)
  | headUndeclared (head : Char)
  | noAlternatives (head : Char)
  | emptyAlternative (head : Char)
  | undeclaredSymbol (head symbol : Char)
deriving DecidableEq, Repr

namespace GrammarError

def message : GrammarError → String
  | startUndeclared s => s!"Start symbol `{s}` is not a nonterminal"
  | sharedSymbol s => s!"Symbol `{s}` is both a terminal and a nonterminal"
  | headUndeclared x => s!"Rule defined for `{x}`, which is not a nonterminal"
  | noAlternatives x => s!"Rule for `{x}` has no alternatives"
  | emptyAlternative x => s!"Rule for `{x}` has an empty alternative"
  | undeclaredSymbol x s => s!"Rule for `{x}` uses undeclared symbol `{s}`"

instance : ToString GrammarError := ⟨message⟩

end GrammarError

namespace Grammar

/-- The four parts of a grammar, as proposed. -/
structure Parts where
  nonterminals : CharSet
  terminals : CharSet
  rules : Table Char Body
  start : Char
deriving DecidableEq

namespace Parts

/-- A symbol is declared in the set of its own kind. -/
def Declares (p : Parts) : Symbol → Prop
  | .terminal c => c ∈ p.terminals
  | .nonterminal c => c ∈ p.nonterminals

instance (p : Parts) (s : Symbol) : Decidable (p.Declares s) :=
  match s with
  | .terminal c => inferInstanceAs (Decidable (c ∈ p.terminals))
  | .nonterminal c => inferInstanceAs (Decidable (c ∈ p.nonterminals))

/-- What a rule has to satisfy. -/
structure ValidRule (p : Parts) (head : Char) (body : Body) : Prop where
  head_mem : head ∈ p.nonterminals
  body_ne_nil : body ≠ []
  alternative_ne_nil : ∀ alternative ∈ body, alternative ≠ []
  declared : ∀ alternative ∈ body, ∀ s ∈ alternative, p.Declares s

structure Valid (p : Parts) : Prop where
  start_mem : p.start ∈ p.nonterminals
  disjoint : ∀ c ∈ p.nonterminals, c ∉ p.terminals
  rules_valid : ∀ e ∈ p.rules.entries, p.ValidRule e.1 e.2

def alternativeFault? (p : Parts) (head : Char) (alternative : Alternative) :
    Option GrammarError :=
  if alternative = [] then some (.emptyAlternative head)
  else (alternative.find? (fun s => ¬ p.Declares s)).map
    (fun s => .undeclaredSymbol head s.char)

def ruleFault? (p : Parts) (head : Char) (body : Body) : Option GrammarError :=
  if head ∉ p.nonterminals then some (.headUndeclared head)
  else if body = [] then some (.noAlternatives head)
  else body.findSome? (p.alternativeFault? head)

/-- The first fault: the start symbol's, then the least shared symbol's, then the rules' in order
of their heads. -/
def fault? (p : Parts) : Option GrammarError :=
  if p.start ∉ p.nonterminals then some (.startUndeclared p.start)
  else match p.nonterminals.toList.find? (· ∈ p.terminals) with
    | some c => some (.sharedSymbol c)
    | none => p.rules.entries.findSome? (fun e => p.ruleFault? e.1 e.2)

theorem alternativeFault?_eq_none_iff {p : Parts} {head : Char} {alternative : Alternative} :
    p.alternativeFault? head alternative = none ↔
      alternative ≠ [] ∧ ∀ s ∈ alternative, p.Declares s := by
  unfold alternativeFault?
  split
  · simp_all
  · simp_all [List.find?_eq_none]

theorem ruleFault?_eq_none_iff {p : Parts} {head : Char} {body : Body} :
    p.ruleFault? head body = none ↔ p.ValidRule head body := by
  unfold ruleFault?
  split
  · next h => exact ⟨nofun, fun hv => absurd hv.head_mem h⟩
  · next hm =>
    split
    · next h => exact ⟨nofun, fun hv => absurd h hv.body_ne_nil⟩
    · next hne =>
      simp only [List.findSome?_eq_none_iff, alternativeFault?_eq_none_iff]
      constructor
      · intro h
        exact ⟨Decidable.not_not.mp hm, hne, fun a ha => (h a ha).1, fun a ha => (h a ha).2⟩
      · intro hv a ha
        exact ⟨hv.alternative_ne_nil a ha, hv.declared a ha⟩

theorem fault?_eq_none_iff {p : Parts} : p.fault? = none ↔ p.Valid := by
  unfold fault?
  split
  · next h => exact ⟨nofun, fun hv => absurd hv.start_mem h⟩
  · next hs =>
    split
    · next c hc =>
      have hm := List.mem_of_find?_eq_some hc
      have ht := List.find?_some hc
      exact ⟨nofun, fun hv => absurd (of_decide_eq_true ht) (hv.disjoint c hm)⟩
    · next hn =>
      simp only [List.findSome?_eq_none_iff, ruleFault?_eq_none_iff]
      constructor
      · intro h
        refine ⟨Decidable.not_not.mp hs, ?_, h⟩
        intro c hc ht
        exact List.find?_eq_none.mp hn c hc (decide_eq_true ht)
      · intro hv
        exact hv.rules_valid

end Parts

end Grammar

/-- A grammar is a valid proposal. -/
structure Grammar extends Grammar.Parts where
  valid : toParts.Valid
deriving DecidableEq

namespace Grammar

instance : Proposal Parts GrammarError Grammar where
  Valid := Parts.Valid
  fault? := Parts.fault?
  fault?_eq_none_iff := Parts.fault?_eq_none_iff
  accept p h := ⟨p, h⟩
  parts := toParts
  parts_accept _ := rfl
  exists_accept g := ⟨g.valid, rfl⟩

abbrev ofParts (p : Parts) : Except GrammarError Grammar := Proposal.check p

/-- Rules with one head are joined, in order. -/
def gather (rules : List (Char × Body)) : Table Char Body :=
  rules.foldl (fun t r => t.upsert r.1 (fun former => former.getD [] ++ r.2)) ∅

/-- Reads a character of a rule by the set that it is in. -/
def symbolOf (nonterminals terminals : CharSet) (head c : Char) : Except GrammarError Symbol :=
  if c ∈ nonterminals then .ok (.nonterminal c)
  else if c ∈ terminals then .ok (.terminal c)
  else .error (.undeclaredSymbol head c)

/-- A grammar whose alternatives are given as strings. -/
def ofStrings (nonterminals terminals : CharSet) (rules : List (Char × List String))
    (start : Char) : Except GrammarError Grammar := do
  let read ← rules.mapM fun (head, alternatives) => do
    let body ← alternatives.mapM fun alternative =>
      alternative.toList.mapM (symbolOf nonterminals terminals head)
    return (head, body)
  ofParts ⟨nonterminals, terminals, gather read, start⟩

def alternatives? (g : Grammar) (nonterminal : Char) : Option Body :=
  g.rules.get? nonterminal

/-- Each alternative together with its head, by head and then in order. -/
def productions (g : Grammar) : List (Char × Alternative) :=
  g.rules.entries.flatMap fun (head, body) => body.map (head, ·)

/-- The rules `S = dA`, `A = aB | b`, `B = bC | d` and `C = cB | aA`. -/
def sample : Grammar where
  nonterminals := .ofList ['S', 'A', 'B', 'C']
  terminals := .ofList ['a', 'b', 'c', 'd']
  rules := .ofList [
    ('S', [[.terminal 'd', .nonterminal 'A']]),
    ('A', [[.terminal 'a', .nonterminal 'B'], [.terminal 'b']]),
    ('B', [[.terminal 'b', .nonterminal 'C'], [.terminal 'd']]),
    ('C', [[.terminal 'c', .nonterminal 'B'], [.terminal 'a', .nonterminal 'A']])]
  start := 'S'
  valid := Parts.fault?_eq_none_iff.mp (by decide)

end Grammar

end CharGrammar
