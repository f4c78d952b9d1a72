import CharGrammar.Proofs.StatedRules

namespace CharGrammar.RuleFile

/-- What is wrong, without where. -/
def unlocated (answer : Except RuleFaults Grammar) : Except (List RuleFault) Grammar :=
  answer.mapError (List.map Located.item)

namespace Definitions

variable {definitions definitions' : Definitions} {start : Char}

/-- The alternatives of each head, without locations. -/
def bodies (definitions : Definitions) : Table Char Body := definitions.mapValues Definition.body

theorem items_undefinedUses :
    definitions.undefinedUses.map (·.item) =
      definitions.bodies.values.flatMap fun body => body.flatMap fun alternative =>
        ((Form.nonterminals alternative).filter fun c => (definitions.bodies.get? c).isNone).map
          .undefined := by
  simp [undefinedUses, bodies, Table.values_mapValues, List.map_flatMap, List.flatMap_map,
    Function.comp_def]

theorem parts_eq_bodies :
    definitions.parts start =
      ⟨.ofList definitions.bodies.keys,
        .ofList (definitions.bodies.values.flatMap fun body => body.flatMap Form.terminals),
        definitions.bodies, start⟩ := by
  rw [parts, bodies, Table.keys_mapValues, Table.values_mapValues, List.flatMap_map]

end Definitions

open Definitions

variable {rules rules' : List (Located Rule)} {file : String} {x : Char}

theorem unlocated_grammarOf {first : Located Rule} {rest : List (Located Rule)} :
    unlocated (grammarOf file (first :: rest)) =
      match (ofRules (first :: rest)).undefinedUses.map (·.item) with
      | [] => (Grammar.ofParts ((ofRules (first :: rest)).parts first.item.head)).mapError
          fun e => [.invalid e]
      | faults => .error faults := by
  cases hu : (ofRules (first :: rest)).undefinedUses with
  | nil =>
    rw [grammarOf_cons hu]
    cases Grammar.ofParts ((ofRules (first :: rest)).parts first.item.head) <;> rfl
  | cons fault faults =>
    have hne : (ofRules (first :: rest)).undefinedUses ≠ [] := by simp [hu]
    rw [grammarOf_of_undefinedUses hne, hu]
    rfl

/-- Rules with the same alternatives at each head are joined alike. -/
theorem bodies_ofRules_congr (hst : ∀ rule ∈ rules, rule.item.Stated)
    (hst' : ∀ rule ∈ rules', rule.item.Stated) (hb : ∀ x, bodyFor x rules = bodyFor x rules') :
    (ofRules rules).bodies = (ofRules rules').bodies := by
  have hget (rules : List (Located Rule)) (x : Char) : (ofRules rules).bodies.get? x =
      if rulesFor x rules = [] then none else some (bodyFor x rules) := by
    have hr : (ofRules rules).bodies = ((ofRules rules).parts x).rules := rfl
    rw [hr, get?_rules_parts]
  apply Table.ext_get?
  intro x
  rw [hget, hget, hb]
  -- A head has an entry only if it has rules, which shows in its alternatives too.
  have hn : rulesFor x rules = [] ↔ rulesFor x rules' = [] := by
    rw [← bodyFor_eq_nil_iff hst, hb, bodyFor_eq_nil_iff hst']
  simp only [hn]

/-- Rules with the same first head and the same alternatives at each head give the same grammar or
the same faults. -/
theorem unlocated_grammarOf_congr (hst : ∀ rule ∈ rules, rule.item.Stated)
    (hst' : ∀ rule ∈ rules', rule.item.Stated)
    (hfirst : rules.head?.map (·.item.head) = rules'.head?.map (·.item.head))
    (hb : ∀ x, bodyFor x rules = bodyFor x rules') :
    unlocated (grammarOf file rules) = unlocated (grammarOf file rules') := by
  have hbodies := bodies_ofRules_congr hst hst' hb
  cases rules with
  | nil =>
    cases rules' with
    | nil => rfl
    | cons _ _ => cases hfirst
  | cons first rest =>
    cases rules' with
    | nil => cases hfirst
    | cons first' rest' =>
      have hhead : first.item.head = first'.item.head := Option.some.inj hfirst
      rw [unlocated_grammarOf, unlocated_grammarOf, items_undefinedUses, items_undefinedUses,
        parts_eq_bodies, parts_eq_bodies, hbodies, hhead]

theorem bodyFor_eq_flatMap_items :
    bodyFor x rules = ((rulesFor x rules).map (·.item)).flatMap Rule.body := by
  rw [List.flatMap_map]
  rfl

theorem items_rulesFor {items : List Rule} (h : rules.map (·.item) = items) :
    (rulesFor x rules).map (·.item) = items.filter (·.head = x) := by
  rw [← h, List.filter_map]
  rfl

/-- A rule split in two, with no rule of its head between the parts, states the same. -/
theorem bodyFor_split {front middle back : List Rule} {y : Char} {as bs : Body}
    (h : rules.map (·.item) = front ++ ⟨y, as ++ bs⟩ :: (middle ++ back))
    (h' : rules'.map (·.item) = front ++ ⟨y, as⟩ :: (middle ++ ⟨y, bs⟩ :: back))
    (hm : ∀ rule ∈ middle, rule.head ≠ y) : bodyFor x rules = bodyFor x rules' := by
  rw [bodyFor_eq_flatMap_items, bodyFor_eq_flatMap_items, items_rulesFor h, items_rulesFor h']
  -- Between the parts there is no rule of their head, and at other heads neither part counts.
  by_cases hx : y = x
  · have hn : middle.filter (·.head = x) = [] := by
      apply List.filter_eq_nil_iff.mpr
      intro rule hr
      simpa [hx] using hm rule hr
    simp [List.filter_append, hx, hn]
  · simp [List.filter_append, hx]

theorem head?_of_items {items : List Rule} (h : rules.map (·.item) = items) :
    rules.head?.map (·.item.head) = items.head?.map Rule.head := by
  rw [← h, List.head?_map, Option.map_map]
  rfl

theorem parse_congr {text text' : String} (hm : malformedLines text.toList = [])
    (hm' : malformedLines text'.toList = [])
    (hfirst : (statedRules text.toList).head?.map (·.item.head) =
      (statedRules text'.toList).head?.map (·.item.head))
    (hb : ∀ x, bodyFor x (statedRules text.toList) = bodyFor x (statedRules text'.toList)) :
    unlocated (parse text) = unlocated (parse text') := by
  rw [parse_of_wellFormed hm, parse_of_wellFormed hm']
  exact unlocated_grammarOf_congr (fun _ => stated_of_mem) (fun _ => stated_of_mem) hfirst hb

/-- A text is known by its first head and the alternatives of each head in line order. So rules of
different heads may be reordered around each other, and a rule may be split where no rule of its
head comes between, as long as the first head stays. -/
theorem parse_known_by_bodies :
    (∀ text text' : String, malformedLines text.toList = [] → malformedLines text'.toList = [] →
      (statedRules text.toList).head?.map (·.item.head) =
        (statedRules text'.toList).head?.map (·.item.head) →
      (∀ x, bodyFor x (statedRules text.toList) = bodyFor x (statedRules text'.toList)) →
      unlocated (parse text) = unlocated (parse text')) ∧
    (∀ text text' : String, malformedLines text.toList = [] → malformedLines text'.toList = [] →
      (statedRules text.toList).head?.map (·.item.head) =
        (statedRules text'.toList).head?.map (·.item.head) →
      (∀ x, (rulesFor x (statedRules text.toList)).map (·.item) =
        (rulesFor x (statedRules text'.toList)).map (·.item)) →
      unlocated (parse text) = unlocated (parse text')) ∧
    ∀ (text text' : String) (front middle back : List Rule) (x : Char) (as bs : Body),
      malformedLines text.toList = [] → malformedLines text'.toList = [] →
      (statedRules text.toList).map (·.item) = front ++ ⟨x, as ++ bs⟩ :: (middle ++ back) →
      (statedRules text'.toList).map (·.item) = front ++ ⟨x, as⟩ :: (middle ++ ⟨x, bs⟩ :: back) →
      (∀ rule ∈ middle, rule.head ≠ x) → unlocated (parse text) = unlocated (parse text') := by
  refine ⟨fun _ _ => parse_congr, ?_, ?_⟩
  · intro text text' hm hm' hfirst hr
    apply parse_congr hm hm' hfirst
    intro x
    rw [bodyFor_eq_flatMap_items, bodyFor_eq_flatMap_items, hr]
  · intro text text' front middle back x as bs hm hm' hs hs' hx
    apply parse_congr hm hm'
    · rw [head?_of_items hs, head?_of_items hs']
      cases front <;> rfl
    · exact fun _ => bodyFor_split hs hs' hx

theorem split_rule_reads_alike :
    unlocated (parse "S = aA | b\nA = c\n") = unlocated (parse "S = aA\nA = c\nS = b\n") ∧
      unlocated (parse "S = aA\nA = B\nC = c\n") =
        unlocated (parse "S = aA\nC = c\nA = B\n") := by
  constructor
  · exact parse_known_by_bodies.2.2 _ _ [] [⟨'A', [[.terminal 'c']]⟩] [] 'S'
      [[.terminal 'a', .nonterminal 'A']] [[.terminal 'b']] (by decide +kernel)
      (by decide +kernel) (by decide +kernel) (by decide +kernel) (by decide)
  · apply parse_known_by_bodies.1 _ _ (by decide +kernel) (by decide +kernel) (by decide +kernel)
    have hs : statedRules "S = aA\nA = B\nC = c\n".toList =
        [⟨.inText 1 0, 'S', [[.terminal 'a', .nonterminal 'A']]⟩,
          ⟨.inText 2 0, 'A', [[.nonterminal 'B']]⟩, ⟨.inText 3 0, 'C', [[.terminal 'c']]⟩] := by
      decide +kernel
    have hs' : statedRules "S = aA\nC = c\nA = B\n".toList =
        [⟨.inText 1 0, 'S', [[.terminal 'a', .nonterminal 'A']]⟩,
          ⟨.inText 2 0, 'C', [[.terminal 'c']]⟩, ⟨.inText 3 0, 'A', [[.nonterminal 'B']]⟩] := by
      decide +kernel
    intro x
    rw [hs, hs']
    by_cases hA : 'A' = x
    · subst hA
      rfl
    · by_cases hC : 'C' = x
      · subst hC
        rfl
      · simp [bodyFor, rulesFor, List.filter_cons, hA, hC]

end CharGrammar.RuleFile
