import Mathlib.Data.List.Basic
import CharGrammar.Proofs.JoinedRules
import CharGrammar.Proofs.RuleLines
import CharGrammar.RuleFile.Load

namespace CharGrammar

namespace RuleFile

variable {file : String} {lines : List (Option (List Char))} {g : Grammar}

theorem ofLines_eq_ok_iff :
    ofLines file lines = .ok g ↔
      faultsOf (readLines file lines) = [] ∧ Joins (rulesOf (readLines file lines)) g := by
  rw [ofLines]
  cases faultsOf (readLines file lines) with
  | nil => simp only [grammarOf_eq_ok_iff, true_and]
  | cons fault faults => simp only [reduceCtorEq, false_and]

/-- Each rule of a file is stated by one of its lines. -/
theorem exists_line_of_mem_rulesOf {rule : Located Rule}
    (h : rule ∈ rulesOf (readLines file lines)) :
    ∃ line, some line ∈ lines ∧ Rule.read line = .ok rule.item := by
  obtain ⟨reading, hm, hr⟩ := List.mem_filterMap.mp h
  obtain ⟨⟨decoded, number⟩, hl, hd⟩ := List.mem_filterMap.mp hm
  cases reading with
  | error fault => cases hr
  | ok found =>
    cases hr
    cases decoded with
    | none => cases hd
    | some line =>
      refine ⟨line, List.fst_mem_of_mem_zipIdx hl, ?_⟩
      simp only [readLine?] at hd
      split at hd
      · split at hd
        · next hread =>
          cases hd
          exact hread
        · cases hd
      · cases hd

section Printed

variable {rules : List Rule}

theorem readLine?_ruleLine {r : Rule} {number : Nat} (h : r.Printable) :
    readLine? file number (some (ruleLine r)) = some (.ok ⟨.inFile file number, r⟩) := by
  simp [readLine?, statesRule_ruleLine h.head_upper, read_ruleLine h]

theorem readLines_printed (h : ∀ r ∈ rules, r.Printable) :
    readLines file ((rules.map ruleLine).map some) =
      (rules.zipIdx 1).map fun (r, number) => .ok ⟨.inFile file number, r⟩ := by
  rw [readLines, List.map_map, List.zipIdx_map, List.filterMap_map,
    List.filterMap_eq_map_iff_forall_eq_some]
  intro e he
  exact readLine?_ruleLine (h e.1 (List.fst_mem_of_mem_zipIdx he))

theorem faultsOf_printed (h : ∀ r ∈ rules, r.Printable) :
    faultsOf (readLines file ((rules.map ruleLine).map some)) = [] := by
  rw [faultsOf, readLines_printed h, List.filterMap_eq_nil_iff]
  intro reading hm
  obtain ⟨e, _, rfl⟩ := List.mem_map.mp hm
  rfl

theorem rulesOf_printed (h : ∀ r ∈ rules, r.Printable) :
    (rulesOf (readLines file ((rules.map ruleLine).map some))).map (·.item) = rules := by
  rw [rulesOf, readLines_printed h, List.filterMap_map]
  simp [Function.comp_def]

/-- Rules printed line by line come out as the lines they were printed to. -/
theorem textLines_printed (h : ∀ r ∈ rules, r.Printable) :
    textLines (rules.flatMap (ruleLine · ++ ['\n'])) = rules.map ruleLine := by
  have he : rules.flatMap (ruleLine · ++ ['\n']) = (rules.map ruleLine).flatMap (· ++ ['\n']) := by
    rw [List.flatMap_map]
  rw [textLines, he]
  apply Text.lines_written
  · intro line hl
    obtain ⟨r, hr, rfl⟩ := List.mem_map.mp hl
    exact (prints_ruleLine (h r hr)).lineEnd_not_mem
  · intro line hl
    obtain ⟨r, hr, rfl⟩ := List.mem_map.mp hl
    exact (prints_ruleLine (h r hr)).getLast?_ne

end Printed

/-- A grammar that is read from a text is joined from rules that can be printed. -/
theorem joins_of_parse {text : String} (h : parse text = .ok g) :
    ∃ rules, (∀ rule ∈ rules, rule.item.Printable) ∧ Joins rules g := by
  obtain ⟨_, hj⟩ := ofLines_eq_ok_iff.mp h
  refine ⟨_, ?_, hj⟩
  intro rule hr
  obtain ⟨line, hm, hl⟩ := exists_line_of_mem_rulesOf hr
  obtain ⟨line', hm', he⟩ := List.mem_map.mp hm
  cases he
  exact printable_of_read (Text.lineEnd_not_mem hm') hl

end RuleFile

namespace Grammar

variable {g : Grammar} {x : Char}

/-- The rules of a grammar in the order in which they are printed. -/
def printedRules (g : Grammar) : List RuleFile.Rule := g.orderedRules.map fun r => ⟨r.1, r.2⟩

theorem render_eq :
    g.render = g.printedRules.flatMap (RuleFile.ruleLine · ++ ['\n']) := by
  rw [printedRules, List.flatMap_map]
  rfl

theorem orderedRules_perm : g.orderedRules.Perm g.rules.entries := by
  simpa [orderedRules] using
    List.filter_append_perm (fun e : Char × Body => decide (e.1 = g.start)) g.rules.entries

theorem mem_printedRules_iff {r : RuleFile.Rule} :
    r ∈ g.printedRules ↔ g.alternatives? r.head = some r.body := by
  rw [alternatives?, Table.get?_eq_some_iff, ← orderedRules_perm.mem_iff, printedRules,
    List.mem_map]
  constructor
  · intro h
    obtain ⟨e, he, rfl⟩ := h
    exact he
  · intro h
    exact ⟨_, h, rfl⟩

/-- Each head has one printed rule at most. -/
theorem filter_printedRules :
    g.printedRules.filter (·.head = x) = ((g.alternatives? x).map (RuleFile.Rule.mk x)).toList := by
  have hp := (g.orderedRules_perm.filter (·.1 = x)).map fun e => RuleFile.Rule.mk e.1 e.2
  rw [Table.filter_entries] at hp
  rw [printedRules, List.filter_map, alternatives?]
  cases hx : g.rules.get? x with
  | none =>
    rw [hx] at hp
    exact hp.eq_nil
  | some body =>
    rw [hx] at hp
    exact hp.eq_singleton

theorem head?_printedRules {body : Body} (h : g.alternatives? g.start = some body) :
    g.printedRules.head? = some ⟨g.start, body⟩ := by
  have hs : g.rules.entries.filter (·.1 = g.start) = [(g.start, body)] := by
    rw [Table.filter_entries, ← alternatives?, h]
    rfl
  rw [printedRules, orderedRules, hs]
  rfl

variable {rules : List (Located RuleFile.Rule)}

/-- The printed rules have all alternatives of the grammar, in order. -/
theorem sameBodies_printedRules (hr : rules.map (·.item) = g.printedRules) :
    RuleFile.SameBodies rules g := by
  intro x
  have hx : (RuleFile.rulesFor x rules).map (·.item) =
      ((g.alternatives? x).map (RuleFile.Rule.mk x)).toList := by
    rw [← filter_printedRules, ← hr, List.filter_map]
    rfl
  cases hg : g.alternatives? x with
  | none =>
    rw [hg] at hx
    rw [if_pos (List.map_eq_nil_iff.mp hx)]
  | some body =>
    rw [hg] at hx
    obtain ⟨rule, hrule, hi⟩ := List.map_eq_singleton_iff.mp hx
    simp [RuleFile.bodyFor, hrule, hi]

theorem start_printedRules {body : Body} (hr : rules.map (·.item) = g.printedRules)
    (hb : g.alternatives? g.start = some body) :
    rules.head?.map (·.item.head) = some g.start := by
  have hh := head?_printedRules hb
  rw [← hr, List.head?_map] at hh
  obtain ⟨first, hfirst, hi⟩ := Option.map_eq_some_iff.mp hh
  rw [hfirst, Option.map_some, hi]

/-- What a grammar needs to be read from a text: rules for all its nonterminals, which are
uppercase, and terminals that are all used and that a rule line can hold. -/
structure Loadable (g : Grammar) : Prop where
  nonterminals_upper : ∀ x ∈ g.nonterminals, x.isUpper = true
  has_rule : ∀ x ∈ g.nonterminals, ∃ body, g.alternatives? x = some body
  terminals_iff : ∀ c, c ∈ g.terminals ↔ ∃ p ∈ g.productions, .terminal c ∈ p.2
  quote_not_mem : '"' ∉ g.terminals
  lineEnd_not_mem : '\n' ∉ g.terminals

namespace Loadable

theorem writable (h : g.Loadable) {s : Symbol} (hs : g.Declares s) : RuleFile.Writable s := by
  cases s with
  | terminal c =>
    constructor
    · intro hc
      subst hc
      exact h.quote_not_mem hs
    · intro hc
      subst hc
      exact h.lineEnd_not_mem hs
  | nonterminal c => exact h.nonterminals_upper c hs

theorem printable (h : g.Loadable) : ∀ r ∈ g.printedRules, r.Printable := by
  intro r hr
  have hv := validRule (mem_printedRules_iff.mp hr)
  refine ⟨h.nonterminals_upper _ hv.head_mem, ⟨hv.body_ne_nil, hv.alternative_ne_nil⟩, ?_⟩
  intro alternative ha s hs
  exact h.writable (hv.declared alternative ha s hs)

/-- A loadable grammar is what its printed rules join to. -/
theorem joins (h : g.Loadable) (hr : rules.map (·.item) = g.printedRules) :
    RuleFile.Joins rules g := by
  have hb := sameBodies_printedRules hr
  obtain ⟨body, hs⟩ := h.has_rule g.start g.valid.start_mem
  refine ⟨start_printedRules hr hs, ?_, ?_, hb⟩
  · intro x
    constructor
    · intro hx hn
      obtain ⟨body, ha⟩ := h.has_rule x hx
      rw [hb, if_pos hn] at ha
      cases ha
    · intro hn
      have ha := hb x
      rw [if_neg hn] at ha
      exact (validRule ha).head_mem
  · intro c
    exact (h.terminals_iff c).trans hb.exists_production_iff

/-- What printable rules join to is loadable. -/
theorem of_joins (hp : ∀ rule ∈ rules, rule.item.Printable) (hj : RuleFile.Joins rules g) :
    g.Loadable := by
  have hw : ∀ c ∈ g.terminals, RuleFile.Writable (.terminal c) := by
    intro c hc
    obtain ⟨rule, hr, alternative, ha, hs⟩ := (hj.terminals_iff c).mp hc
    exact (hp rule hr).writable alternative ha _ hs
  refine ⟨?_, ?_, ?_, fun hq => (hw _ hq).1 rfl, fun hn => (hw _ hn).2 rfl⟩
  · intro x hx
    obtain ⟨rule, hr⟩ := List.exists_mem_of_ne_nil _ ((hj.nonterminals_iff x).mp hx)
    obtain ⟨hm, he⟩ := List.mem_filter.mp hr
    rw [← of_decide_eq_true he]
    exact (hp rule hm).head_upper
  · intro x hx
    rw [hj.same_bodies, if_neg ((hj.nonterminals_iff x).mp hx)]
    exact ⟨_, rfl⟩
  · intro c
    exact (hj.terminals_iff c).trans hj.same_bodies.exists_production_iff.symm

theorem parse_text (h : g.Loadable) : RuleFile.parse g.text = .ok g := by
  rw [RuleFile.parse, text, String.toList_ofList, render_eq, RuleFile.textLines_printed h.printable,
    RuleFile.ofLines_eq_ok_iff]
  exact ⟨RuleFile.faultsOf_printed h.printable, h.joins (RuleFile.rulesOf_printed h.printable)⟩

theorem of_parse {text : String} (h : RuleFile.parse text = .ok g) : g.Loadable := by
  obtain ⟨rules, hp, hj⟩ := RuleFile.joins_of_parse h
  exact of_joins hp hj

end Loadable

/-- The grammars that are read back from what they print are the loadable ones, and only such
grammars are read from any text. -/
theorem parse_text_iff_loadable :
    (∀ g : Grammar, RuleFile.parse g.text = .ok g ↔ g.Loadable) ∧
      ∀ (text : String) (g : Grammar), RuleFile.parse text = .ok g →
        g.Loadable ∧ RuleFile.parse g.text = .ok g := by
  refine ⟨?_, ?_⟩
  · intro g
    exact ⟨Loadable.of_parse, Loadable.parse_text⟩
  · intro text g h
    have hl := Loadable.of_parse h
    exact ⟨hl, hl.parse_text⟩

theorem sample_reloads : sample.Loadable ∧ RuleFile.parse sample.text = .ok sample :=
  parse_text_iff_loadable.2 sample.text sample (by decide +kernel)

end Grammar

end CharGrammar
