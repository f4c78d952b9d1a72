import Mathlib.Data.List.Induction
import CharGrammar.Proofs.Tables
import CharGrammar.RuleFile.Definitions

namespace CharGrammar

variable {c x : Char}

namespace Form

theorem mem_nonterminals_iff {form : Form} : c ∈ form.nonterminals ↔ .nonterminal c ∈ form := by
  unfold nonterminals
  rw [List.mem_filterMap]
  constructor
  · intro h
    obtain ⟨s, hs, he⟩ := h
    cases s with
    | terminal _ => cases he
    | nonterminal _ =>
      cases he
      exact hs
  · intro h
    exact ⟨_, h, rfl⟩

theorem mem_terminals_iff {form : Form} : c ∈ form.terminals ↔ .terminal c ∈ form := by
  unfold terminals
  rw [List.mem_filterMap]
  constructor
  · intro h
    obtain ⟨s, hs, he⟩ := h
    cases s with
    | terminal _ =>
      cases he
      exact hs
    | nonterminal _ => cases he
  · intro h
    exact ⟨_, h, rfl⟩

end Form

namespace RuleFile

variable {rules : List (Located Rule)} {rule : Located Rule}

/-- The rules of one head, in order. -/
def rulesFor (x : Char) (rules : List (Located Rule)) : List (Located Rule) :=
  rules.filter (·.item.head = x)

/-- The alternatives of all rules of one head, in order. -/
def bodyFor (x : Char) (rules : List (Located Rule)) : Body :=
  (rulesFor x rules).flatMap (·.item.body)

/-- Some alternative of a rule uses a symbol. -/
def Uses (rules : List (Located Rule)) (s : Symbol) : Prop :=
  ∃ rule ∈ rules, ∃ alternative ∈ rule.item.body, s ∈ alternative

theorem rulesFor_append_self :
    rulesFor rule.item.head (rules ++ [rule]) = rulesFor rule.item.head rules ++ [rule] := by
  simp [rulesFor]

theorem rulesFor_append_ne (h : x ≠ rule.item.head) :
    rulesFor x (rules ++ [rule]) = rulesFor x rules := by
  simp [rulesFor, h.symm]

theorem rulesFor_eq_nil_iff : rulesFor x rules = [] ↔ ∀ rule ∈ rules, rule.item.head ≠ x := by
  simp [rulesFor, List.filter_eq_nil_iff]

theorem mem_bodyFor_iff {alternative : Alternative} :
    alternative ∈ bodyFor x rules ↔
      ∃ rule ∈ rules, rule.item.head = x ∧ alternative ∈ rule.item.body := by
  simp [bodyFor, rulesFor, and_assoc]

namespace Definitions

theorem ofRules_append : ofRules (rules ++ [rule]) = (ofRules rules).add rule :=
  List.foldl_append

/-- A head is defined by its rules together, at the place of the first. -/
theorem get?_ofRules :
    (ofRules rules).get? x =
      (rulesFor x rules).head?.map fun first => ⟨bodyFor x rules, first.location⟩ := by
  induction rules using List.reverseRecOn with
  | nil => rfl
  | append_singleton rules rule ih =>
    rw [ofRules_append, add]
    by_cases hx : x = rule.item.head
    · subst hx
      rw [Table.get?_upsert_self, ih, bodyFor, bodyFor, rulesFor_append_self, List.flatMap_append]
      cases rulesFor rule.item.head rules with
      | nil => simp
      | cons first others => simp
    · rw [Table.get?_upsert_ne hx, ih, bodyFor, bodyFor, rulesFor_append_ne hx]

theorem mem_keys_ofRules_iff : x ∈ (ofRules rules).keys ↔ rulesFor x rules ≠ [] := by
  rw [Table.mem_keys_iff, get?_ofRules]
  cases rulesFor x rules <;> simp

theorem body_of_get? {d : Definition} (h : (ofRules rules).get? x = some d) :
    d.body = bodyFor x rules := by
  rw [get?_ofRules] at h
  obtain ⟨first, _, rfl⟩ := Option.map_eq_some_iff.mp h
  rfl

/-- The joined rules use the symbols that the rules use. -/
theorem exists_value_iff_uses {s : Symbol} :
    (∃ d ∈ (ofRules rules).values, ∃ alternative ∈ d.body, s ∈ alternative) ↔ Uses rules s := by
  constructor
  · intro h
    obtain ⟨d, hd, alternative, ha, hs⟩ := h
    obtain ⟨x, hx⟩ := Table.mem_values_iff.mp hd
    rw [body_of_get? hx] at ha
    obtain ⟨rule, hr, _, hm⟩ := mem_bodyFor_iff.mp ha
    exact ⟨rule, hr, alternative, hm, hs⟩
  · intro h
    obtain ⟨rule, hr, alternative, ha, hs⟩ := h
    have hk : rulesFor rule.item.head rules ≠ [] := by
      intro hn
      exact rulesFor_eq_nil_iff.mp hn rule hr rfl
    obtain ⟨d, hd⟩ := Table.mem_keys_iff.mp (mem_keys_ofRules_iff.mpr hk)
    refine ⟨d, Table.mem_values_iff.mpr ⟨_, hd⟩, alternative, ?_, hs⟩
    rw [body_of_get? hd]
    exact mem_bodyFor_iff.mpr ⟨rule, hr, rfl, ha⟩

theorem mem_undefinedUses_iff {fault : Located RuleFault} :
    fault ∈ (ofRules rules).undefinedUses ↔
      ∃ d ∈ (ofRules rules).values, ∃ alternative ∈ d.body, ∃ c,
        (.nonterminal c ∈ alternative ∧ rulesFor c rules = []) ∧
          ⟨d.location, .undefined c⟩ = fault := by
  have hc : ∀ {c}, ((ofRules rules).get? c).isNone = true ↔ rulesFor c rules = [] := by
    intro c
    rw [get?_ofRules]
    cases rulesFor c rules <;> simp
  simp only [undefinedUses, List.mem_flatMap, List.mem_map, List.mem_filter,
    Form.mem_nonterminals_iff, hc]

/-- The faults name the nonterminals that are used and have no rule. -/
theorem exists_undefined_iff :
    (∃ fault ∈ (ofRules rules).undefinedUses, fault.item = .undefined c) ↔
      Uses rules (.nonterminal c) ∧ rulesFor c rules = [] := by
  constructor
  · intro h
    obtain ⟨fault, hf, hi⟩ := h
    obtain ⟨d, hd, alternative, ha, x, ⟨hx, hn⟩, rfl⟩ := mem_undefinedUses_iff.mp hf
    cases hi
    exact ⟨exists_value_iff_uses.mp ⟨d, hd, alternative, ha, hx⟩, hn⟩
  · intro h
    obtain ⟨hu, hn⟩ := h
    obtain ⟨d, hd, alternative, ha, hx⟩ := exists_value_iff_uses.mpr hu
    exact ⟨_, mem_undefinedUses_iff.mpr ⟨d, hd, alternative, ha, c, ⟨hx, hn⟩, rfl⟩, rfl⟩

theorem undefined_of_mem {fault : Located RuleFault} (h : fault ∈ (ofRules rules).undefinedUses) :
    ∃ c, fault.item = .undefined c := by
  obtain ⟨_, _, _, _, c, _, rfl⟩ := mem_undefinedUses_iff.mp h
  exact ⟨c, rfl⟩

/-- There is no fault exactly if every nonterminal that is used has a rule. -/
theorem undefinedUses_eq_nil_iff :
    (ofRules rules).undefinedUses = [] ↔
      ∀ c, Uses rules (.nonterminal c) → rulesFor c rules ≠ [] := by
  constructor
  · intro h c hu hn
    obtain ⟨fault, hf, _⟩ := exists_undefined_iff.mpr ⟨hu, hn⟩
    rw [h] at hf
    cases hf
  · intro h
    apply List.eq_nil_iff_forall_not_mem.mpr
    intro fault hf
    obtain ⟨c, hc⟩ := undefined_of_mem hf
    obtain ⟨hu, hn⟩ := exists_undefined_iff.mp ⟨fault, hf, hc⟩
    exact h c hu hn

end Definitions

/-- At each head a grammar has all alternatives of the rules, and none where there are no rules. -/
def SameBodies (rules : List (Located Rule)) (g : Grammar) : Prop :=
  ∀ x, g.alternatives? x = if rulesFor x rules = [] then none else some (bodyFor x rules)

/-- The grammar that joined rules state declares what they use, and has their alternatives. -/
structure Joins (rules : List (Located Rule)) (g : Grammar) : Prop where
  start_eq : rules.head?.map (·.item.head) = some g.start
  nonterminals_iff : ∀ x, x ∈ g.nonterminals ↔ rulesFor x rules ≠ []
  terminals_iff : ∀ c, c ∈ g.terminals ↔
    ∃ rule ∈ rules, ∃ alternative ∈ rule.item.body, .terminal c ∈ alternative
  same_bodies : SameBodies rules g

section Parts

variable {start : Char}

theorem mem_nonterminals_parts :
    x ∈ ((Definitions.ofRules rules).parts start).nonterminals ↔ rulesFor x rules ≠ [] :=
  OrderedSet.mem_ofList.trans Definitions.mem_keys_ofRules_iff

theorem mem_terminals_parts :
    c ∈ ((Definitions.ofRules rules).parts start).terminals ↔ Uses rules (.terminal c) := by
  simp only [Definitions.parts, OrderedSet.mem_ofList, List.mem_flatMap, Form.mem_terminals_iff,
    Definitions.exists_value_iff_uses]

theorem get?_rules_parts :
    ((Definitions.ofRules rules).parts start).rules.get? x =
      if rulesFor x rules = [] then none else some (bodyFor x rules) := by
  rw [Definitions.parts, Table.get?_mapValues, Definitions.get?_ofRules]
  cases rulesFor x rules <;> simp

end Parts

variable {g : Grammar}

namespace SameBodies

theorem mem_productions_iff (h : SameBodies rules g) {alternative : Alternative} :
    (x, alternative) ∈ g.productions ↔
      ∃ rule ∈ rules, rule.item.head = x ∧ alternative ∈ rule.item.body := by
  rw [Grammar.mem_productions_iff, h, ← mem_bodyFor_iff]
  by_cases hn : rulesFor x rules = []
  · simp [bodyFor, hn]
  · simp [hn]

/-- The grammar and the rules use the same symbols. -/
theorem exists_production_iff (h : SameBodies rules g) {s : Symbol} :
    (∃ p ∈ g.productions, s ∈ p.2) ↔ Uses rules s := by
  constructor
  · intro hp
    obtain ⟨⟨x, alternative⟩, hm, hs⟩ := hp
    obtain ⟨rule, hr, _, ha⟩ := h.mem_productions_iff.mp hm
    exact ⟨rule, hr, alternative, ha, hs⟩
  · intro hr
    obtain ⟨rule, hr, alternative, ha, hs⟩ := hr
    exact ⟨(rule.item.head, alternative), h.mem_productions_iff.mpr ⟨rule, hr, rfl, ha⟩, hs⟩

end SameBodies

namespace Joins

theorem of_parts {first : Located Rule}
    (h : g.toParts = (Definitions.ofRules (first :: rules)).parts first.item.head) :
    Joins (first :: rules) g where
  start_eq := by
    rw [h]
    rfl
  nonterminals_iff x := by
    rw [h]
    exact mem_nonterminals_parts
  terminals_iff c := by
    rw [h]
    exact mem_terminals_parts
  same_bodies x := by
    rw [Grammar.alternatives?, h]
    exact get?_rules_parts

theorem parts_eq (h : Joins rules g) :
    (Definitions.ofRules rules).parts g.start = g.toParts := by
  have hn : ((Definitions.ofRules rules).parts g.start).nonterminals = g.nonterminals :=
    OrderedSet.ext_mem fun x => mem_nonterminals_parts.trans (h.nonterminals_iff x).symm
  have ht : ((Definitions.ofRules rules).parts g.start).terminals = g.terminals :=
    OrderedSet.ext_mem fun c => mem_terminals_parts.trans (h.terminals_iff c).symm
  have hr : ((Definitions.ofRules rules).parts g.start).rules = g.rules :=
    Table.ext_get? fun x => get?_rules_parts.trans (h.same_bodies x).symm
  have hp (p : Grammar.Parts) : p = ⟨p.nonterminals, p.terminals, p.rules, p.start⟩ := rfl
  rw [hp (Definitions.parts _ _), hn, ht, hr]
  rfl

/-- Nothing that the rules use is left without a rule, since the grammar declares what it uses. -/
theorem undefinedUses_eq_nil (h : Joins rules g) :
    (Definitions.ofRules rules).undefinedUses = [] := by
  rw [Definitions.undefinedUses_eq_nil_iff]
  intro c hu
  obtain ⟨rule, hr, alternative, ha, hc⟩ := hu
  have hp := h.same_bodies.mem_productions_iff.mpr ⟨rule, hr, rfl, ha⟩
  obtain ⟨body, hb, hm⟩ := Grammar.mem_productions_iff.mp hp
  have hd : g.Declares (.nonterminal c) := (Grammar.validRule hb).declared alternative hm _ hc
  exact (h.nonterminals_iff c).mp hd

end Joins

section GrammarOf

variable {file : String}

theorem grammarOf_of_undefinedUses (h : (Definitions.ofRules rules).undefinedUses ≠ []) :
    grammarOf file rules = .error (Definitions.ofRules rules).undefinedUses := by
  cases rules with
  | nil => exact absurd rfl h
  | cons first rest =>
    unfold grammarOf
    cases hu : (Definitions.ofRules (first :: rest)).undefinedUses with
    | nil => exact absurd hu h
    | cons fault faults => simp only [hu]

/-- Where nothing is undefined, the parts decide, and their fault is located at the file. -/
theorem grammarOf_cons {first : Located Rule}
    (h : (Definitions.ofRules (first :: rules)).undefinedUses = []) :
    grammarOf file (first :: rules) =
      (Grammar.ofParts ((Definitions.ofRules (first :: rules)).parts first.item.head)).mapError
        fun e => [⟨.inFile file 0, .invalid e⟩] := by
  simp only [grammarOf, h]
  cases Grammar.ofParts ((Definitions.ofRules (first :: rules)).parts first.item.head) <;> rfl

/-- A grammar is read from rules exactly if they join to it. -/
theorem grammarOf_eq_ok_iff : grammarOf file rules = .ok g ↔ Joins rules g := by
  cases rules with
  | nil =>
    refine ⟨nofun, ?_⟩
    intro h
    cases h.start_eq
  | cons first rest =>
    constructor
    · intro h
      by_cases hu : (Definitions.ofRules (first :: rest)).undefinedUses = []
      · rw [grammarOf_cons hu] at h
        generalize hp : Grammar.ofParts _ = answer at h
        cases answer with
        | ok k =>
          cases h
          exact Joins.of_parts (Proposal.check_eq_ok_iff.mp hp)
        | error e => cases h
      · rw [grammarOf_of_undefinedUses hu] at h
        cases h
    · intro h
      have hs : first.item.head = g.start := Option.some.inj h.start_eq
      have hp : Grammar.ofParts ((Definitions.ofRules (first :: rest)).parts g.start) = .ok g :=
        Proposal.check_eq_ok_iff.mpr h.parts_eq.symm
      rw [grammarOf_cons h.undefinedUses_eq_nil, hs, hp]
      rfl

end GrammarOf

end RuleFile

end CharGrammar
