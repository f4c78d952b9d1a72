import CharGrammar.Proofs.StatedRules

namespace CharGrammar.RuleFile

variable {rules : List (Located Rule)} {start c : Char}

/-- A character that the rules use as a terminal and that is the head of one of them. -/
def Shared (rules : List (Located Rule)) (c : Char) : Prop :=
  Uses rules (.terminal c) ∧ rulesFor c rules ≠ []

/-- A nonterminal that the rules use and that is the head of none of them. -/
def Undefined (rules : List (Located Rule)) (c : Char) : Prop :=
  Uses rules (.nonterminal c) ∧ rulesFor c rules = []

/-- The answer to a text, where each way excludes those before it. -/
inductive Answered (text : List Char) : Except RuleFaults Grammar → Prop
  | malformed {faults : RuleFaults} (some_malformed : malformedLines text ≠ [])
      (one_each : List.Forall₂ Blames (malformedLines text) faults) :
      Answered text (.error faults)
  | noRules (well_formed : malformedLines text = []) (no_lines : ruleLines text = []) :
      Answered text (.error [⟨.inText 0 0, .noRules⟩])
  | undefined {faults : RuleFaults} (well_formed : malformedLines text = [])
      (some_lines : ruleLines text ≠ []) (some_undefined : ∃ c, Undefined (statedRules text) c)
      (ne_nil : faults ≠ []) (only : ∀ fault ∈ faults, ∃ c, fault.item = .undefined c)
      (exactly : ∀ c, (∃ fault ∈ faults, fault.item = .undefined c) ↔
        Undefined (statedRules text) c) :
      Answered text (.error faults)
  | shared {c : Char} (well_formed : malformedLines text = []) (some_lines : ruleLines text ≠ [])
      (all_defined : ∀ c, ¬ Undefined (statedRules text) c) (shared : Shared (statedRules text) c)
      (least : ∀ d, Shared (statedRules text) d → c ≤ d) :
      Answered text (.error [⟨.inText 0 0, .invalid (.sharedSymbol c)⟩])
  | grammar {g : Grammar} (well_formed : malformedLines text = [])
      (some_lines : ruleLines text ≠ []) (all_defined : ∀ c, ¬ Undefined (statedRules text) c)
      (none_shared : ∀ c, ¬ Shared (statedRules text) c) :
      Answered text (.ok g)

/-- Stated rules that use no nonterminal without a rule are valid once joined. -/
theorem validRules_parts (hst : ∀ rule ∈ rules, rule.item.Stated)
    (hd : ∀ c, ¬ Undefined rules c) :
    ∀ e ∈ ((Definitions.ofRules rules).parts start).rules.entries,
      ((Definitions.ofRules rules).parts start).ValidRule e.1 e.2 := by
  intro e he
  have hget := Table.get?_eq_some_iff.mpr he
  rw [get?_rules_parts] at hget
  split at hget
  · cases hget
  · next hne =>
    have hbody := Option.some.inj hget
    refine ⟨mem_nonterminals_parts.mpr hne, hbody ▸ (bodyFor_eq_nil_iff hst).not.mpr hne, ?_, ?_⟩
    · intro alternative ha
      rw [← hbody] at ha
      obtain ⟨rule, hr, _, hm⟩ := mem_bodyFor_iff.mp ha
      exact (hst rule hr).alternative_ne_nil alternative hm
    · intro alternative ha s hs
      rw [← hbody] at ha
      obtain ⟨rule, hr, _, hm⟩ := mem_bodyFor_iff.mp ha
      have hu : Uses rules s := ⟨rule, hr, alternative, hm, hs⟩
      cases s with
      | terminal t => exact mem_terminals_parts.mpr hu
      | nonterminal x => exact mem_nonterminals_parts.mpr fun hn => hd x ⟨hu, hn⟩

theorem mem_both_parts_iff :
    (c ∈ ((Definitions.ofRules rules).parts start).nonterminals ∧
      c ∈ ((Definitions.ofRules rules).parts start).terminals) ↔ Shared rules c := by
  rw [mem_nonterminals_parts, mem_terminals_parts, and_comm]
  rfl

/-- Joined without undefined nonterminals, stated rules have no fault but the least character that
is both a terminal and a head. -/
theorem fault?_parts (hst : ∀ rule ∈ rules, rule.item.Stated) (hd : ∀ c, ¬ Undefined rules c)
    (hs : rulesFor start rules ≠ []) :
    (∃ c, ((Definitions.ofRules rules).parts start).fault? = some (.sharedSymbol c) ∧
      Shared rules c ∧ ∀ d, Shared rules d → c ≤ d) ∨
    ((Definitions.ofRules rules).parts start).fault? = none ∧ ∀ c, ¬ Shared rules c := by
  have hstart : start ∈ ((Definitions.ofRules rules).parts start).nonterminals :=
    mem_nonterminals_parts.mpr hs
  have hp := Grammar.Parts.fault?_of_validRules hstart (validRules_parts hst hd)
  generalize hset : (Definitions.ofRules rules).parts start = p at hp
  have hboth {c : Char} : (c ∈ p.nonterminals ∧ c ∈ p.terminals) ↔ Shared rules c := by
    rw [← hset]
    exact mem_both_parts_iff
  -- The heads are looked through in ascending order, so the first that is shared is the least.
  cases hf : p.nonterminals.toList.find? (· ∈ p.terminals) with
  | some c =>
    rw [hf] at hp
    have ht := List.find?_some hf
    refine .inl ⟨c, hp, hboth.mp ⟨List.mem_of_find?_eq_some hf, of_decide_eq_true ht⟩, ?_⟩
    intro d hd
    obtain ⟨hn, ht⟩ := hboth.mpr hd
    have hb := OrderedSet.not_before_of_find? hf hn (decide_eq_true ht)
    exact UInt32.le_iff_toNat_le.mpr (Nat.le_of_not_lt hb)
  | none =>
    rw [hf] at hp
    refine .inr ⟨hp, ?_⟩
    intro c hc
    obtain ⟨hn, ht⟩ := hboth.mpr hc
    exact List.find?_eq_none.mp hf c hn (decide_eq_true ht)

theorem rulesFor_head_ne_nil {first : Located Rule} {rest : List (Located Rule)} :
    rulesFor first.item.head (first :: rest) ≠ [] := by
  intro hn
  exact rulesFor_eq_nil_iff.mp hn first List.mem_cons_self rfl

/-- Rules without undefined nonterminals are joined to a grammar or fail by a shared symbol. -/
theorem grammarOf_of_defined (file : String) (hst : ∀ rule ∈ rules, rule.item.Stated)
    (hne : rules ≠ []) (hd : ∀ c, ¬ Undefined rules c) :
    (∃ c, grammarOf file rules = .error [⟨.inFile file 0, .invalid (.sharedSymbol c)⟩] ∧
      Shared rules c ∧ ∀ d, Shared rules d → c ≤ d) ∨
    (∃ g, grammarOf file rules = .ok g) ∧ ∀ c, ¬ Shared rules c := by
  cases rules with
  | nil => exact absurd rfl hne
  | cons first rest =>
    have hu := Definitions.undefinedUses_eq_nil_iff.mpr fun c hc hn => hd c ⟨hc, hn⟩
    rcases fault?_parts hst hd rulesFor_head_ne_nil with ⟨c, hf, hc⟩ | ⟨hf, hc⟩
    · have hp : Grammar.ofParts _ = .error _ := Proposal.check_eq_error_iff.mpr hf
      refine .inl ⟨c, ?_, hc⟩
      rw [grammarOf_cons hu, hp]
      rfl
    · obtain ⟨g, hp⟩ : ∃ g, Grammar.ofParts _ = .ok g :=
        Proposal.exists_check_iff.mpr (Grammar.Parts.fault?_eq_none_iff.mp hf)
      refine .inr ⟨⟨g, ?_⟩, hc⟩
      rw [grammarOf_cons hu, hp]
      rfl

/-- Rules with an undefined nonterminal fail with faults that name all of these. -/
theorem grammarOf_of_undefined (file : String) (h : Undefined rules c) :
    ∃ faults, grammarOf file rules = .error faults ∧ faults ≠ [] ∧
      (∀ fault ∈ faults, ∃ c, fault.item = .undefined c) ∧
      ∀ c, (∃ fault ∈ faults, fault.item = .undefined c) ↔ Undefined rules c := by
  have hne : (Definitions.ofRules rules).undefinedUses ≠ [] := by
    intro hn
    exact Definitions.undefinedUses_eq_nil_iff.mp hn c h.1 h.2
  exact ⟨_, grammarOf_of_undefinedUses hne, hne, fun fault => Definitions.undefined_of_mem,
    fun c => Definitions.exists_undefined_iff⟩

theorem answered_parse (text : String) : Answered text.toList (parse text) := by
  by_cases hm : malformedLines text.toList = []
  · rw [parse_of_wellFormed hm]
    by_cases hl : ruleLines text.toList = []
    · rw [(statedRules_eq_nil_iff hm).mpr hl]
      exact .noRules hm hl
    · have hst : ∀ rule ∈ statedRules text.toList, rule.item.Stated := fun _ => stated_of_mem
      by_cases hu : ∃ c, Undefined (statedRules text.toList) c
      · obtain ⟨c, hc⟩ := hu
        obtain ⟨faults, hf, hne, honly, hexactly⟩ := grammarOf_of_undefined "" hc
        rw [hf]
        exact .undefined hm hl ⟨c, hc⟩ hne honly hexactly
      · have hd := not_exists.mp hu
        have hne : statedRules text.toList ≠ [] := fun hn => hl ((statedRules_eq_nil_iff hm).mp hn)
        rcases grammarOf_of_defined "" hst hne hd with ⟨c, hg, hc, hleast⟩ | ⟨⟨g, hg⟩, hnone⟩
        · rw [hg]
          exact .shared hm hl hd hc hleast
        · rw [hg]
          exact .grammar hm hl hd hnone
  · obtain ⟨faults, hf, hb⟩ := parse_of_malformed hm
    rw [hf]
    exact .malformed hm hb

/-- Every fault in an answer is that of a rule line, or tells one of three things about all of
them. -/
theorem Answered.fault_cases {text : List Char} {faults : RuleFaults} {fault : Located RuleFault}
    (h : Answered text (.error faults)) (hf : fault ∈ faults) :
    (∃ line ∈ malformedLines text, Blames line fault) ∨ fault.item = .noRules ∨
      (∃ c, fault.item = .undefined c) ∨ ∃ c, fault.item = .invalid (.sharedSymbol c) := by
  cases h with
  | malformed _ one_each => exact .inl (exists_blames one_each hf)
  | noRules =>
    cases List.mem_singleton.mp hf
    exact .inr (.inl rfl)
  | undefined _ _ _ _ only _ => exact .inr (.inr (.inl (only fault hf)))
  | @shared c =>
    cases List.mem_singleton.mp hf
    exact .inr (.inr (.inr ⟨c, rfl⟩))

/-- Only a shared symbol makes the joined rules of a text an invalid grammar. -/
theorem Answered.eq_sharedSymbol {text : List Char} {faults : RuleFaults}
    {fault : Located RuleFault} {e : GrammarError} (h : Answered text (.error faults))
    (hf : fault ∈ faults) (he : fault.item = .invalid e) : ∃ c, e = .sharedSymbol c := by
  rcases h.fault_cases hf with ⟨line, _, hread, _⟩ | hn | ⟨c, hc⟩ | ⟨c, hc⟩
  · rw [he] at hread
    cases ofLine_of_read hread
  · rw [he] at hn
    cases hn
  · rw [he] at hc
    cases hc
  · rw [he] at hc
    cases hc
    exact ⟨c, rfl⟩

/-- A text is answered in the first of five ways that applies, and no other fault of a grammar than
a shared symbol is ever found in one. -/
theorem parse_answered (text : String) :
    Answered text.toList (parse text) ∧
      ∀ faults, parse text = .error faults → ∀ fault ∈ faults, ∀ e, fault.item = .invalid e →
        ∃ c, e = .sharedSymbol c := by
  have h := answered_parse text
  refine ⟨h, ?_⟩
  intro faults hp fault hf e he
  rw [hp] at h
  exact h.eq_sharedSymbol hf he

theorem quoted_head_answered :
    ∃ fault, parse "S = a\"S\"\n" = .error [fault] ∧ fault.item = .invalid (.sharedSymbol 'S') ∧
      Answered "S = a\"S\"\n".toList (.error [fault]) ∧
      ∃ c, GrammarError.sharedSymbol 'S' = .sharedSymbol c := by
  have hp : parse "S = a\"S\"\n" = .error [⟨.inText 0 0, .invalid (.sharedSymbol 'S')⟩] := by
    decide +kernel
  obtain ⟨ha, hi⟩ := parse_answered "S = a\"S\"\n"
  rw [hp] at ha
  exact ⟨_, hp, rfl, ha, hi _ hp _ List.mem_cons_self _ rfl⟩

end CharGrammar.RuleFile
