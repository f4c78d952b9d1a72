import CharGrammar.Ordered.Table
import CharGrammar.RuleFile.Rule

namespace CharGrammar.RuleFile

/-- The alternatives of a nonterminal from all its rules, with the place of the first. -/
structure Definition where
  body : Body
  location : Location

abbrev Definitions := Table Char Definition

namespace Definitions

def add (definitions : Definitions) (rule : Located Rule) : Definitions :=
  definitions.upsert rule.item.head fun
    | none => ⟨rule.item.body, rule.location⟩
    | some former => { former with body := former.body ++ rule.item.body }

def ofRules (rules : List (Located Rule)) : Definitions := rules.foldl add ∅

/-- A fault for each use of a nonterminal that has no rule, where its user is first defined. -/
def undefinedUses (definitions : Definitions) : RuleFaults :=
  definitions.values.flatMap fun definition =>
    definition.body.flatMap fun alternative =>
      ((Form.nonterminals alternative).filter fun c => (definitions.get? c).isNone).map
        fun c => ⟨definition.location, .undefined c⟩

/-- The grammar whose symbols are those that the rules use. -/
def parts (definitions : Definitions) (start : Char) : Grammar.Parts where
  nonterminals := .ofList definitions.keys
  terminals := .ofList (definitions.values.flatMap fun d => d.body.flatMap Form.terminals)
  rules := definitions.mapValues Definition.body
  start := start

end Definitions

/-- The grammar of a list of rules, which starts with the head of the first. -/
def grammarOf (file : String) (rules : List (Located Rule)) : Except RuleFaults Grammar :=
  match rules with
  | [] => .error [⟨.inFile file 0, .noRules⟩]
  | first :: _ =>
    let definitions := Definitions.ofRules rules
    match definitions.undefinedUses with
    | [] =>
      match Grammar.ofParts (definitions.parts first.item.head) with
      | .ok g => .ok g
      | .error e => .error [⟨.inFile file 0, .invalid e⟩]
    | faults => .error faults

end CharGrammar.RuleFile
