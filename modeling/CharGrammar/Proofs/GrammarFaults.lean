import CharGrammar.Proofs.Tables
import CharGrammar.RuleFile.Load

namespace CharGrammar.Grammar

namespace Parts

/-- The first thing that is wrong with an alternative. -/
inductive BadAlternative (p : Parts) (head : Char) : Alternative → GrammarError → Prop
  | empty : BadAlternative p head [] (.emptyAlternative head)
  | undeclared {front back : Alternative} {s : Symbol} (before : ∀ r ∈ front, p.Declares r)
      (undeclared : ¬ p.Declares s) :
      BadAlternative p head (front ++ s :: back) (.undeclaredSymbol head s.char)

/-- The first thing that is wrong with a rule. -/
inductive BadRule (p : Parts) (head : Char) : Body → GrammarError → Prop
  | head {body : Body} (undeclared : head ∉ p.nonterminals) :
      BadRule p head body (.headUndeclared head)
  | noAlternatives (head_mem : head ∈ p.nonterminals) : BadRule p head [] (.noAlternatives head)
  | alternative {front back : Body} {alternative : Alternative} {e : GrammarError}
      (head_mem : head ∈ p.nonterminals)
      (before : ∀ good ∈ front, good ≠ [] ∧ ∀ s ∈ good, p.Declares s)
      (bad : p.BadAlternative head alternative e) :
      BadRule p head (front ++ alternative :: back) e

/-- The first thing that is wrong with proposed parts. -/
inductive FirstFault (p : Parts) : GrammarError → Prop
  | start (undeclared : p.start ∉ p.nonterminals) : FirstFault p (.startUndeclared p.start)
  | shared {c : Char} (start_mem : p.start ∈ p.nonterminals) (nonterminal : c ∈ p.nonterminals)
      (terminal : c ∈ p.terminals) (least : ∀ d ∈ p.nonterminals, d ∈ p.terminals → c ≤ d) :
      FirstFault p (.sharedSymbol c)
  | rule {x : Char} {body : Body} {e : GrammarError} (start_mem : p.start ∈ p.nonterminals)
      (disjoint : ∀ c ∈ p.nonterminals, c ∉ p.terminals) (get : p.rules.get? x = some body)
      (bad : p.BadRule x body e)
      (before : ∀ y other, p.rules.get? y = some other → y < x → p.ValidRule y other) :
      FirstFault p e

variable {p : Parts} {head : Char} {alternative : Alternative} {body : Body} {e : GrammarError}

theorem alternativeFault?_eq_some_iff :
    p.alternativeFault? head alternative = some e ↔ p.BadAlternative head alternative e := by
  constructor
  · intro h
    unfold alternativeFault? at h
    split at h
    · next hn =>
      cases h
      exact hn ▸ .empty
    · obtain ⟨s, hs, rfl⟩ := Option.map_eq_some_iff.mp h
      obtain ⟨hu, front, back, rfl, hfront⟩ := List.find?_eq_some_iff_append.mp hs
      exact .undeclared (by simpa using hfront) (of_decide_eq_true hu)
  · intro h
    cases h with
    | empty => rfl
    | @undeclared front back s before undeclared =>
      have hfind : (front ++ s :: back).find? (fun s => ¬ p.Declares s) = some s :=
        List.find?_eq_some_iff_append.mpr
          ⟨decide_eq_true undeclared, front, back, rfl, by simpa using before⟩
      rw [alternativeFault?, if_neg (by simp), hfind]
      rfl

theorem ruleFault?_eq_some_iff : p.ruleFault? head body = some e ↔ p.BadRule head body e := by
  constructor
  · intro h
    unfold ruleFault? at h
    split at h
    · next hh =>
      cases h
      exact .head hh
    · next hh =>
      have hhead := Decidable.not_not.mp hh
      split at h
      · next hn =>
        cases h
        exact hn ▸ .noAlternatives hhead
      · obtain ⟨front, alternative, back, rfl, hbad, hfront⟩ := List.findSome?_eq_some_iff.mp h
        refine .alternative hhead ?_ (alternativeFault?_eq_some_iff.mp hbad)
        exact fun good hg => alternativeFault?_eq_none_iff.mp (hfront good hg)
  · intro h
    unfold ruleFault?
    cases h with
    | head undeclared => rw [if_pos undeclared]
    | noAlternatives head_mem => rw [if_neg (not_not_intro head_mem), if_pos rfl]
    | @alternative front back alternative _ head_mem before bad =>
      rw [if_neg (not_not_intro head_mem), if_neg (by simp)]
      refine List.findSome?_eq_some_iff.mpr
        ⟨front, alternative, back, rfl, alternativeFault?_eq_some_iff.mpr bad, ?_⟩
      exact fun good hg => alternativeFault?_eq_none_iff.mpr (before good hg)

theorem findSome?_ruleFault?_iff :
    p.rules.entries.findSome? (fun e => p.ruleFault? e.1 e.2) = some e ↔
      ∃ x body, p.rules.get? x = some body ∧ p.BadRule x body e ∧
        ∀ y other, p.rules.get? y = some other → y < x → p.ValidRule y other := by
  simp only [Table.findSome?_eq_some_iff, ruleFault?_eq_some_iff, ruleFault?_eq_none_iff,
    Key.before_char_iff]

theorem find?_shared_iff {c : Char} :
    p.nonterminals.toList.find? (· ∈ p.terminals) = some c ↔
      c ∈ p.nonterminals ∧ c ∈ p.terminals ∧ ∀ d ∈ p.nonterminals, d ∈ p.terminals → c ≤ d := by
  simp only [OrderedSet.find?_eq_some_iff, decide_eq_true_eq, Key.not_before_char_iff]

theorem find?_shared_eq_none_iff :
    p.nonterminals.toList.find? (· ∈ p.terminals) = none ↔
      ∀ c ∈ p.nonterminals, c ∉ p.terminals := by
  simp only [List.find?_eq_none, OrderedSet.mem_toList, decide_eq_true_eq]

theorem fault?_eq_some_iff : p.fault? = some e ↔ p.FirstFault e := by
  constructor
  · intro h
    unfold fault? at h
    split at h
    · next hs =>
      cases h
      exact .start hs
    · next hs =>
      have hstart := Decidable.not_not.mp hs
      split at h
      · next c hc =>
        cases h
        obtain ⟨hn, ht, hleast⟩ := find?_shared_iff.mp hc
        exact .shared hstart hn ht hleast
      · next hc =>
        obtain ⟨x, body, hget, hbad, hbefore⟩ := findSome?_ruleFault?_iff.mp h
        exact .rule hstart (find?_shared_eq_none_iff.mp hc) hget hbad hbefore
  · intro h
    unfold fault?
    cases h with
    | start undeclared => rw [if_pos undeclared]
    | shared start_mem nonterminal terminal least =>
      rw [if_neg (not_not_intro start_mem), find?_shared_iff.mpr ⟨nonterminal, terminal, least⟩]
    | rule start_mem disjoint get bad before =>
      rw [if_neg (not_not_intro start_mem), find?_shared_eq_none_iff.mpr disjoint]
      exact findSome?_ruleFault?_iff.mpr ⟨_, _, get, bad, before⟩

end Parts

/-- A grammar that can be had: the sample, one from parts or from strings, or one that was read. -/
inductive Obtained : Grammar → Prop
  | sample : Obtained .sample
  | ofParts {p : Parts} {g : Grammar} (h : ofParts p = .ok g) : Obtained g
  | ofStrings {nonterminals terminals : CharSet} {rules : List (Char × List String)} {start : Char}
      {g : Grammar} (h : ofStrings nonterminals terminals rules start = .ok g) : Obtained g
  | parse {text : String} {g : Grammar} (h : RuleFile.parse text = .ok g) : Obtained g
  | load {file : String} {contents : Except FileFault (List UInt8)} {g : Grammar}
      (h : RuleFile.load file contents = .ok g) : Obtained g

/-- Parts make a grammar exactly if they are valid, and are refused for the first thing that is
wrong with them otherwise. Every grammar that can be had is valid and would be accepted again. -/
theorem ofParts_tells_first_fault :
    (∀ p : Parts, ((∃ g, ofParts p = .ok g) ↔ p.Valid) ∧ (∀ g, ofParts p = .ok g ↔ g.toParts = p) ∧
      ∀ e, ofParts p = .error e ↔ p.FirstFault e) ∧
    ∀ g, Obtained g → g.toParts.Valid ∧ ofParts g.toParts = .ok g := by
  constructor
  · intro p
    refine ⟨Proposal.exists_check_iff, fun g => Proposal.check_eq_ok_iff, ?_⟩
    intro e
    exact Proposal.check_eq_error_iff.trans Parts.fault?_eq_some_iff
  · intro g _
    -- However it was had, a grammar carries its validity, the sample too, which is never checked.
    exact ⟨g.valid, Proposal.check_eq_ok_iff.mpr rfl⟩

/-- A rule uses a terminal as a nonterminal and has an empty alternative, and the next rule has an
undeclared head and no alternatives. -/
def Parts.misdeclared : Parts where
  nonterminals := .ofList ['S']
  terminals := .ofList ['a']
  rules := .ofList [('X', []), ('S', [[.terminal 'a'], [.nonterminal 'a'], []])]
  start := 'S'

theorem misdeclared_refused :
    Parts.misdeclared.FirstFault (.undeclaredSymbol 'S' 'a') ∧ sample.toParts.Valid ∧
      ∃ g, RuleFile.parse "S = a\n" = .ok g ∧ ofParts g.toParts = .ok g := by
  obtain ⟨hparts, hobtained⟩ := ofParts_tells_first_fault
  refine ⟨((hparts .misdeclared).2.2 _).mp rfl, (hobtained sample .sample).1, ?_⟩
  have hok : (RuleFile.parse "S = a\n").isOk = true := by decide +kernel
  cases hg : RuleFile.parse "S = a\n" with
  | error faults =>
    rw [hg] at hok
    cases hok
  | ok g => exact ⟨g, rfl, (hobtained g (.parse hg)).2⟩

end CharGrammar.Grammar
