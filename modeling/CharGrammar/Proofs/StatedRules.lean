import Mathlib.Data.List.Forall2
import CharGrammar.Proofs.JoinedRules
import CharGrammar.Proofs.Readings
import CharGrammar.RuleFile.Load

namespace CharGrammar.RuleFile

/-- The lines of a text that state rules, each with its number among all lines. -/
def ruleLines (text : List Char) : List (List Char × Nat) :=
  ((textLines text).zipIdx 1).filter fun line => statesRule line.1

/-- The rule lines that cannot be read. -/
def malformedLines (text : List Char) : List (List Char × Nat) :=
  (ruleLines text).filter fun line => !(Rule.read line.1).isOk

/-- The rules that are read from the rule lines, in line order. -/
def statedRules (text : List Char) : List (Located Rule) :=
  (ruleLines text).filterMap fun line =>
    (Rule.read line.1).toOption.map fun rule => ⟨.inText line.2 0, rule⟩

/-- A fault tells what is wrong with a numbered line, and its number. -/
def Blames (line : List Char × Nat) (fault : Located RuleFault) : Prop :=
  Rule.read line.1 = .error fault.item ∧ fault.location = .inText line.2 0

/-- What a numbered rule line is read as. -/
def readNumbered (line : List Char × Nat) : Except (Located RuleFault) (Located Rule) :=
  match Rule.read line.1 with
  | .ok rule => .ok ⟨.inText line.2 0, rule⟩
  | .error fault => .error ⟨.inText line.2 0, fault⟩

variable {text : List Char} {lines : List (List Char × Nat)}

theorem filterMap_readLine? :
    lines.filterMap (fun line => readLine? "" line.2 (some line.1)) =
      (lines.filter fun line => statesRule line.1).map readNumbered := by
  induction lines with
  | nil => rfl
  | cons line rest ih =>
    rw [List.filterMap_cons, List.filter_cons, ih, readLine?]
    cases statesRule line.1 with
    | false => rfl
    | true =>
      simp only [if_true, List.map_cons, readNumbered]
      cases Rule.read line.1 <;> rfl

theorem readLines_text :
    readLines "" ((textLines text).map some) = (ruleLines text).map readNumbered := by
  rw [readLines, List.zipIdx_map, List.filterMap_map, ruleLines, ← filterMap_readLine?]
  rfl

/-- Each line that cannot be read has one fault, and no other line has any. -/
theorem blames_faultsOf :
    List.Forall₂ Blames (lines.filter fun line => !(Rule.read line.1).isOk)
      (faultsOf (lines.map readNumbered)) := by
  induction lines with
  | nil => exact .nil
  | cons line rest ih =>
    rw [List.filter_cons, List.map_cons, faultsOf, List.filterMap_cons, ← faultsOf, readNumbered]
    cases hr : Rule.read line.1 with
    | error fault => exact .cons ⟨hr, rfl⟩ ih
    | ok rule => exact ih

theorem exists_blames {faults : RuleFaults} {fault : Located RuleFault}
    (h : List.Forall₂ Blames lines faults) (hf : fault ∈ faults) :
    ∃ line ∈ lines, Blames line fault := by
  induction h with
  | nil => cases hf
  | @cons line _ _ _ hb _ ih =>
    rcases List.mem_cons.mp hf with rfl | hf
    · exact ⟨line, List.mem_cons_self, hb⟩
    · obtain ⟨l, hl, hbl⟩ := ih hf
      exact ⟨l, List.mem_cons_of_mem _ hl, hbl⟩

theorem exists_fault {faults : RuleFaults} {line : List Char × Nat}
    (h : List.Forall₂ Blames lines faults) (hl : line ∈ lines) :
    ∃ fault ∈ faults, Blames line fault := by
  induction h with
  | nil => cases hl
  | @cons _ fault _ _ hb _ ih =>
    rcases List.mem_cons.mp hl with rfl | hl
    · exact ⟨fault, List.mem_cons_self, hb⟩
    · obtain ⟨f, hf, hbl⟩ := ih hl
      exact ⟨f, List.mem_cons_of_mem _ hf, hbl⟩

theorem rulesOf_text : rulesOf ((ruleLines text).map readNumbered) = statedRules text := by
  rw [rulesOf, List.filterMap_map, statedRules]
  congr 1
  funext line
  rw [Function.comp_apply, readNumbered]
  cases Rule.read line.1 <;> rfl

theorem parse_of_malformed {text : String} (h : malformedLines text.toList ≠ []) :
    ∃ faults, parse text = .error faults ∧
      List.Forall₂ Blames (malformedLines text.toList) faults := by
  have hb : List.Forall₂ Blames (malformedLines text.toList) _ := blames_faultsOf
  rw [parse, ofLines, readLines_text]
  cases hf : faultsOf ((ruleLines text.toList).map readNumbered) with
  | nil =>
    rw [hf] at hb
    exact absurd (List.forall₂_nil_right_iff.mp hb) h
  | cons fault faults =>
    rw [hf] at hb
    exact ⟨_, rfl, hb⟩

theorem parse_of_wellFormed {text : String} (h : malformedLines text.toList = []) :
    parse text = grammarOf "" (statedRules text.toList) := by
  have hb : List.Forall₂ Blames (malformedLines text.toList) _ := blames_faultsOf
  rw [h] at hb
  rw [parse, ofLines, readLines_text, rulesOf_text]
  simp only [List.forall₂_nil_left_iff.mp hb]

/-- Without malformed lines each rule line states a rule. -/
theorem statedRules_eq_nil_iff (h : malformedLines text = []) :
    statedRules text = [] ↔ ruleLines text = [] := by
  constructor
  · intro hs
    rw [List.eq_nil_iff_forall_not_mem]
    intro line hl
    have hn := List.filterMap_eq_nil_iff.mp hs line hl
    have hr := List.filter_eq_nil_iff.mp h line hl
    cases hread : Rule.read line.1 with
    | ok rule =>
      rw [hread] at hn
      cases hn
    | error fault =>
      rw [hread] at hr
      exact hr rfl
  · intro hr
    rw [statedRules, hr]
    rfl

theorem stated_of_mem {rule : Located Rule} (h : rule ∈ statedRules text) : rule.item.Stated := by
  obtain ⟨line, _, hl⟩ := List.mem_filterMap.mp h
  cases hr : Rule.read line.1 with
  | error fault =>
    rw [hr] at hl
    cases hl
  | ok read =>
    rw [hr] at hl
    cases hl
    exact (read_eq_ok_iff.mp hr).2

/-- A head has alternatives if it has rules. -/
theorem bodyFor_eq_nil_iff {rules : List (Located Rule)} {x : Char}
    (hst : ∀ rule ∈ rules, rule.item.Stated) : bodyFor x rules = [] ↔ rulesFor x rules = [] := by
  constructor
  · intro hb
    apply List.eq_nil_iff_forall_not_mem.mpr
    intro rule hr
    obtain ⟨hm, _⟩ := List.mem_filter.mp hr
    exact (hst rule hm).body_ne_nil (List.flatMap_eq_nil_iff.mp hb rule hr)
  · intro hn
    rw [bodyFor, hn]
    rfl

end CharGrammar.RuleFile
