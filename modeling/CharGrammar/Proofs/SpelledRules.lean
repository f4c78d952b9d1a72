import Mathlib.Data.List.Induction
import CharGrammar.Proofs.GrammarFaults

namespace CharGrammar.Grammar

/-- The characters of rules in the order in which they are given, each with its head. -/
def spelled (rules : List (Char × List String)) : List (Char × Char) :=
  rules.flatMap fun (head, alternatives) =>
    alternatives.flatMap fun alternative => alternative.toList.map (head, ·)

/-- The entries of one head, in order. -/
def entriesFor {α : Type} (x : Char) (rules : List (Char × α)) : List (Char × α) :=
  rules.filter (·.1 = x)

/-- The alternatives of all entries of one head, in order. -/
def alternativesFor {α : Type} (x : Char) (rules : List (Char × List α)) : List α :=
  (entriesFor x rules).flatMap (·.2)

/-- A string as an alternative: what is in the set is a nonterminal and the rest are terminals. -/
def tagged (nonterminals : CharSet) (alternative : String) : Alternative :=
  alternative.toList.map fun c => if c ∈ nonterminals then .nonterminal c else .terminal c

/-- The rules of a grammar with its alternatives as strings. -/
def spelling (g : Grammar) : List (Char × List String) :=
  g.rules.entries.map fun (x, body) => (x, body.map Form.text)

/-- Rules given as strings that make a grammar. -/
structure Spells (nonterminals terminals : CharSet) (rules : List (Char × List String))
    (start : Char) : Prop where
  start_mem : start ∈ nonterminals
  disjoint : ∀ c ∈ nonterminals, c ∉ terminals
  head_mem : ∀ rule ∈ rules, rule.1 ∈ nonterminals
  some_alternative : ∀ rule ∈ rules, alternativesFor rule.1 rules ≠ []
  alternative_ne : ∀ rule ∈ rules, ∀ alternative ∈ rule.2, alternative ≠ ""
  declared : ∀ rule ∈ rules, ∀ alternative ∈ rule.2, ∀ c ∈ alternative.toList,
    c ∈ nonterminals ∨ c ∈ terminals

section Mapped

variable {α β ι ε : Type} {f : α → Except ε β} {value : α → β} {found : α → Option ι} {e : ι → ε}

/-- Where each element is read unless something is found in it, so is the list of them, and what is
found first decides. -/
theorem mapM_eq_elim (h : ∀ x, f x = (found x).elim (.ok (value x)) fun i => .error (e i))
    (xs : List α) :
    xs.mapM f = (xs.findSome? found).elim (.ok (xs.map value)) fun i => .error (e i) := by
  induction xs with
  | nil => rfl
  | cons x rest ih =>
    rw [List.mapM_cons, h, ih, List.findSome?_cons]
    cases found x with
    | some i => rfl
    | none => cases rest.findSome? found <;> rfl

end Mapped

variable {nonterminals terminals : CharSet} {rules : List (Char × List String)}
  {start head x : Char}

/-- A character that is in neither set. -/
def stray (nonterminals terminals : CharSet) (p : Char × Char) : Bool :=
  p.2 ∉ nonterminals ∧ p.2 ∉ terminals

theorem stray_iff {p : Char × Char} :
    stray nonterminals terminals p = true ↔ p.2 ∉ nonterminals ∧ p.2 ∉ terminals := by
  simp [stray]

theorem not_stray_iff {p : Char × Char} :
    ¬ stray nonterminals terminals p = true ↔ p.2 ∈ nonterminals ∨ p.2 ∈ terminals := by
  rw [stray_iff, not_and_or, Decidable.not_not, Decidable.not_not]

theorem mem_spelled_iff {p : Char × Char} :
    p ∈ spelled rules ↔
      ∃ rule ∈ rules, ∃ alternative ∈ rule.2, ∃ c ∈ alternative.toList, (rule.1, c) = p := by
  simp [spelled]

theorem symbolOf_eq (c : Char) :
    symbolOf nonterminals terminals head c =
      ([(head, c)].find? (stray nonterminals terminals)).elim
        (.ok (if c ∈ nonterminals then .nonterminal c else .terminal c))
        fun p => .error (.undeclaredSymbol p.1 p.2) := by
  by_cases hn : c ∈ nonterminals <;> by_cases ht : c ∈ terminals <;>
    simp [symbolOf, stray, hn, ht]

theorem mapM_symbolOf (alternative : String) :
    alternative.toList.mapM (symbolOf nonterminals terminals head) =
      ((alternative.toList.map (head, ·)).find? (stray nonterminals terminals)).elim
        (.ok (tagged nonterminals alternative))
        fun p => .error (.undeclaredSymbol p.1 p.2) := by
  have hmap : alternative.toList.map (head, ·) = alternative.toList.flatMap fun c => [(head, c)] :=
    List.map_eq_flatMap
  rw [mapM_eq_elim symbolOf_eq, hmap, List.find?_flatMap]
  rfl

theorem mapM_alternatives (alternatives : List String) :
    (alternatives.mapM fun alternative =>
        alternative.toList.mapM (symbolOf nonterminals terminals head)) =
      ((alternatives.flatMap fun alternative => alternative.toList.map (head, ·)).find?
        (stray nonterminals terminals)).elim
        (.ok (alternatives.map (tagged nonterminals)))
        fun p => .error (.undeclaredSymbol p.1 p.2) := by
  rw [mapM_eq_elim mapM_symbolOf, List.find?_flatMap]

/-- Characters, alternatives and rules are all read in this way, so the first stray character of all
is the one that is found. -/
theorem mapM_rules {f : Char × List String → Except GrammarError (Char × Body)}
    (h : ∀ head alternatives, f (head, alternatives) = do
      let body ← alternatives.mapM fun alternative =>
        alternative.toList.mapM (symbolOf nonterminals terminals head)
      return (head, body)) :
    rules.mapM f =
      ((spelled rules).find? (stray nonterminals terminals)).elim
        (.ok (rules.map fun rule => (rule.1, rule.2.map (tagged nonterminals))))
        fun p => .error (.undeclaredSymbol p.1 p.2) := by
  rw [spelled, List.find?_flatMap]
  apply mapM_eq_elim
  intro rule
  obtain ⟨head, alternatives⟩ := rule
  rw [h, mapM_alternatives]
  cases (alternatives.flatMap fun alternative => alternative.toList.map (head, ·)).find?
    (stray nonterminals terminals) <;> rfl

/-- The parts of rules whose characters are all declared. -/
def spelledParts (nonterminals terminals : CharSet) (rules : List (Char × List String))
    (start : Char) : Parts :=
  ⟨nonterminals, terminals,
    gather (rules.map fun rule => (rule.1, rule.2.map (tagged nonterminals))), start⟩

theorem ofStrings_eq :
    ofStrings nonterminals terminals rules start =
      ((spelled rules).find? (stray nonterminals terminals)).elim
        (ofParts (spelledParts nonterminals terminals rules start))
        fun p => .error (.undeclaredSymbol p.1 p.2) := by
  unfold ofStrings
  rw [mapM_rules fun _ _ => rfl]
  cases (spelled rules).find? (stray nonterminals terminals) <;> rfl

section Entries

variable {α β : Type} {entries : List (Char × List α)}

theorem entriesFor_eq_nil_iff : entriesFor x entries = [] ↔ ∀ e ∈ entries, e.1 ≠ x := by
  simp [entriesFor, List.filter_eq_nil_iff]

theorem mem_alternativesFor_iff {a : α} :
    a ∈ alternativesFor x entries ↔ ∃ e ∈ entries, e.1 = x ∧ a ∈ e.2 := by
  simp [alternativesFor, entriesFor, and_assoc]

theorem entriesFor_map {f : List α → List β} :
    entriesFor x (entries.map fun e => (e.1, f e.2)) =
      (entriesFor x entries).map fun e => (e.1, f e.2) := by
  simp [entriesFor, List.filter_map, Function.comp_def]

theorem entriesFor_append_self {e : Char × List α} :
    entriesFor e.1 (entries ++ [e]) = entriesFor e.1 entries ++ [e] := by
  simp [entriesFor]

theorem entriesFor_append_ne {e : Char × List α} (h : x ≠ e.1) :
    entriesFor x (entries ++ [e]) = entriesFor x entries := by
  simp [entriesFor, h.symm]

/-- A head has the alternatives of all its entries, once it has an entry. -/
theorem get?_gather {entries : List (Char × Body)} :
    (gather entries).get? x =
      if entriesFor x entries = [] then none else some (alternativesFor x entries) := by
  unfold gather
  induction entries using List.reverseRecOn with
  | nil => rfl
  | append_singleton entries e ih =>
    rw [List.foldl_append, List.foldl_cons, List.foldl_nil, alternativesFor]
    by_cases hx : x = e.1
    · subst hx
      rw [Table.get?_upsert_self, ih, alternativesFor, entriesFor_append_self]
      by_cases hn : entriesFor e.1 entries = [] <;> simp [hn]
    · rw [Table.get?_upsert_ne hx, ih, entriesFor_append_ne hx, alternativesFor]

end Entries

theorem get?_spelledParts :
    (spelledParts nonterminals terminals rules start).rules.get? x =
      if entriesFor x rules = [] then none
      else some ((alternativesFor x rules).map (tagged nonterminals)) := by
  rw [spelledParts, get?_gather, alternativesFor, entriesFor_map (f := List.map _),
    List.flatMap_map, alternativesFor, List.map_flatMap]
  simp only [List.map_eq_nil_iff]

theorem find?_stray_eq_none_iff :
    (spelled rules).find? (stray nonterminals terminals) = none ↔
      ∀ rule ∈ rules, ∀ alternative ∈ rule.2, ∀ c ∈ alternative.toList,
        c ∈ nonterminals ∨ c ∈ terminals := by
  simp only [List.find?_eq_none, not_stray_iff, mem_spelled_iff]
  constructor
  · intro h rule hr alternative ha c hc
    exact h (rule.1, c) ⟨rule, hr, alternative, ha, c, hc, rfl⟩
  · intro h p hp
    obtain ⟨rule, hr, alternative, ha, c, hc, rfl⟩ := hp
    exact h rule hr alternative ha c hc

theorem tagged_eq_nil_iff {alternative : String} :
    tagged nonterminals alternative = [] ↔ alternative = "" := by
  simp [tagged]

theorem declares_of_mem_tagged {alternative : String} {s : Symbol}
    (h : ∀ c ∈ alternative.toList, c ∈ nonterminals ∨ c ∈ terminals)
    (hs : s ∈ tagged nonterminals alternative) :
    (spelledParts nonterminals terminals rules start).Declares s := by
  obtain ⟨c, hc, rfl⟩ := List.mem_map.mp hs
  split
  · next hn => exact hn
  · next hn => exact (h c hc).resolve_left hn

theorem exists_string_of_mem {alternative : Alternative}
    (h : alternative ∈ (alternativesFor x rules).map (tagged nonterminals)) :
    ∃ rule ∈ rules, ∃ string ∈ rule.2, tagged nonterminals string = alternative := by
  obtain ⟨string, hs, ht⟩ := List.mem_map.mp h
  obtain ⟨rule, hr, _, hm⟩ := mem_alternativesFor_iff.mp hs
  exact ⟨rule, hr, string, hm, ht⟩

theorem Spells.valid (h : Spells nonterminals terminals rules start) :
    (spelledParts nonterminals terminals rules start).Valid := by
  refine ⟨h.start_mem, h.disjoint, ?_⟩
  intro e he
  obtain ⟨x, body⟩ := e
  have hget := Table.get?_eq_some_iff.mpr he
  rw [get?_spelledParts] at hget
  split at hget
  · cases hget
  · next hne =>
    -- A head in the table has an entry, and what holds of its entries holds of its body.
    obtain ⟨rule, hm⟩ := List.exists_mem_of_ne_nil _ hne
    obtain ⟨hr, hx⟩ := List.mem_filter.mp hm
    have hhead : rule.1 = x := of_decide_eq_true hx
    subst hhead
    cases hget
    refine ⟨h.head_mem rule hr, by simpa using h.some_alternative rule hr, ?_, ?_⟩
    · intro alternative ha
      obtain ⟨other, ho, string, hs, rfl⟩ := exists_string_of_mem ha
      exact tagged_eq_nil_iff.not.mpr (h.alternative_ne other ho string hs)
    · intro alternative ha s hs
      obtain ⟨other, ho, string, hm, rfl⟩ := exists_string_of_mem ha
      exact declares_of_mem_tagged (h.declared other ho string hm) hs

theorem spells_of_valid (hd : ∀ rule ∈ rules, ∀ alternative ∈ rule.2, ∀ c ∈ alternative.toList,
    c ∈ nonterminals ∨ c ∈ terminals)
    (hv : (spelledParts nonterminals terminals rules start).Valid) :
    Spells nonterminals terminals rules start := by
  have hrule : ∀ rule ∈ rules, (spelledParts nonterminals terminals rules start).ValidRule rule.1
      ((alternativesFor rule.1 rules).map (tagged nonterminals)) := by
    intro rule hr
    have hne : entriesFor rule.1 rules ≠ [] := fun hn => entriesFor_eq_nil_iff.mp hn rule hr rfl
    refine hv.rules_valid (rule.1, _) (Table.get?_eq_some_iff.mp ?_)
    rw [get?_spelledParts, if_neg hne]
  refine ⟨hv.start_mem, hv.disjoint, fun rule hr => (hrule rule hr).head_mem, ?_, ?_, hd⟩
  · intro rule hr hn
    exact (hrule rule hr).body_ne_nil (by rw [hn]; rfl)
  · intro rule hr alternative ha
    have hm : tagged nonterminals alternative ∈
        (alternativesFor rule.1 rules).map (tagged nonterminals) :=
      List.mem_map.mpr ⟨alternative, mem_alternativesFor_iff.mpr ⟨rule, hr, rfl, ha⟩, rfl⟩
    exact tagged_eq_nil_iff.not.mp ((hrule rule hr).alternative_ne_nil _ hm)

variable {g : Grammar}

theorem ofStrings_eq_ok_iff :
    ofStrings nonterminals terminals rules start = .ok g ↔
      Spells nonterminals terminals rules start ∧
        g.toParts = spelledParts nonterminals terminals rules start := by
  rw [ofStrings_eq]
  cases hf : (spelled rules).find? (stray nonterminals terminals) with
  | none =>
    have hd := find?_stray_eq_none_iff.mp hf
    rw [Option.elim_none, Proposal.check_eq_ok_iff]
    constructor
    · intro hg
      exact ⟨spells_of_valid hd (hg ▸ g.valid), hg⟩
    · exact And.right
  | some p =>
    refine ⟨nofun, ?_⟩
    intro h
    rw [find?_stray_eq_none_iff.mpr h.1.declared] at hf
    cases hf

theorem exists_ofStrings_iff :
    (∃ g, ofStrings nonterminals terminals rules start = .ok g) ↔
      Spells nonterminals terminals rules start := by
  simp only [ofStrings_eq_ok_iff, exists_and_left, and_iff_left_iff_imp]
  intro h
  exact ⟨⟨_, h.valid⟩, rfl⟩

/-- Of the characters that are declared nowhere the first is told, whatever else is wrong. -/
theorem ofStrings_of_stray (h : ∃ p ∈ spelled rules, p.2 ∉ nonterminals ∧ p.2 ∉ terminals) :
    ∃ front head c back, spelled rules = front ++ (head, c) :: back ∧
      (∀ p ∈ front, p.2 ∈ nonterminals ∨ p.2 ∈ terminals) ∧ c ∉ nonterminals ∧ c ∉ terminals ∧
      ofStrings nonterminals terminals rules start = .error (.undeclaredSymbol head c) := by
  obtain ⟨p, hp, hstray⟩ := h
  cases hf : (spelled rules).find? (stray nonterminals terminals) with
  | none => exact absurd (stray_iff.mpr hstray) (List.find?_eq_none.mp hf p hp)
  | some q =>
    obtain ⟨hq, front, back, hs, hfront⟩ := List.find?_eq_some_iff_append.mp hf
    obtain ⟨hn, ht⟩ := stray_iff.mp hq
    refine ⟨front, q.1, q.2, back, hs, ?_, hn, ht, ?_⟩
    · intro r hr
      exact not_stray_iff.mp (by simpa using hfront r hr)
    · rw [ofStrings_eq, hf]
      rfl

theorem gather_entries (t : Table Char Body) : gather t.entries = t := by
  apply Table.ext_get?
  intro x
  rw [get?_gather, alternativesFor, entriesFor, Table.filter_entries]
  cases t.get? x <;> simp

theorem map_eq_self {α : Type} {f : α → α} {xs : List α} (h : ∀ x ∈ xs, f x = x) :
    xs.map f = xs :=
  (List.map_congr_left h).trans (List.map_id xs)

/-- The symbols of a grammar are told apart by their characters. -/
theorem tagged_text {alternative : Alternative} (h : ∀ s ∈ alternative, g.Declares s) :
    tagged g.nonterminals (Form.text alternative) = alternative := by
  rw [tagged, Form.text, String.toList_ofList, Form.chars, List.map_map]
  apply map_eq_self
  intro s hs
  have hd := h s hs
  cases s with
  | terminal c =>
    have hn : c ∉ g.nonterminals := fun hc => g.valid.disjoint c hc hd
    exact if_neg hn
  | nonterminal c => exact if_pos hd

theorem spelledParts_spelling (g : Grammar) :
    spelledParts g.nonterminals g.terminals g.spelling g.start = g.toParts := by
  have hread : g.spelling.map (fun rule => (rule.1, rule.2.map (tagged g.nonterminals))) =
      g.rules.entries := by
    rw [spelling, List.map_map]
    apply map_eq_self
    intro e he
    have hbody : (e.2.map Form.text).map (tagged g.nonterminals) = e.2 := by
      rw [List.map_map]
      apply map_eq_self
      intro alternative ha
      exact tagged_text ((g.valid.rules_valid e he).declared alternative ha)
    exact Prod.ext rfl hbody
  rw [spelledParts, hread, gather_entries]

theorem declared_of_mem_spelling {rule : Char × List String} (hr : rule ∈ g.spelling)
    {alternative : String} (ha : alternative ∈ rule.2) {c : Char} (hc : c ∈ alternative.toList) :
    c ∈ g.nonterminals ∨ c ∈ g.terminals := by
  obtain ⟨e, he, rfl⟩ := List.mem_map.mp hr
  obtain ⟨form, hf, rfl⟩ := List.mem_map.mp ha
  rw [Form.text, String.toList_ofList] at hc
  obtain ⟨s, hs, rfl⟩ := List.mem_map.mp hc
  have hd := (g.valid.rules_valid e he).declared form hf s hs
  cases s with
  | terminal c => exact .inr hd
  | nonterminal c => exact .inl hd

theorem ofStrings_spelling (g : Grammar) :
    ofStrings g.nonterminals g.terminals g.spelling g.start = .ok g := by
  have hv : (spelledParts g.nonterminals g.terminals g.spelling g.start).Valid := by
    rw [spelledParts_spelling]
    exact g.valid
  refine ofStrings_eq_ok_iff.mpr ⟨spells_of_valid ?_ hv, (spelledParts_spelling g).symm⟩
  exact fun rule hr alternative ha c hc => declared_of_mem_spelling hr ha hc

/-- Rules given as strings make a grammar exactly if they spell one, and then each head has the
alternatives of its entries in order. Where some character is declared nowhere, the first of these
is told. Every grammar is made again by its own strings. -/
theorem ofStrings_answered (nonterminals terminals : CharSet) (rules : List (Char × List String))
    (start : Char) :
    ((∃ g, ofStrings nonterminals terminals rules start = .ok g) ↔
      Spells nonterminals terminals rules start) ∧
    (∀ g, ofStrings nonterminals terminals rules start = .ok g →
      g.nonterminals = nonterminals ∧ g.terminals = terminals ∧ g.start = start ∧
      ∀ x, g.alternatives? x = if entriesFor x rules = [] then none
        else some ((alternativesFor x rules).map (tagged nonterminals))) ∧
    ((∃ p ∈ spelled rules, p.2 ∉ nonterminals ∧ p.2 ∉ terminals) →
      ∃ front head c back, spelled rules = front ++ (head, c) :: back ∧
        (∀ p ∈ front, p.2 ∈ nonterminals ∨ p.2 ∈ terminals) ∧ c ∉ nonterminals ∧ c ∉ terminals ∧
        ofStrings nonterminals terminals rules start = .error (.undeclaredSymbol head c)) ∧
    ∀ g : Grammar, ofStrings g.nonterminals g.terminals g.spelling g.start = .ok g := by
  refine ⟨exists_ofStrings_iff, ?_, ofStrings_of_stray, ofStrings_spelling⟩
  intro g hg
  have hp := (ofStrings_eq_ok_iff.mp hg).2
  refine ⟨congrArg Parts.nonterminals hp, congrArg Parts.terminals hp, congrArg Parts.start hp, ?_⟩
  intro x
  rw [alternatives?, hp]
  exact get?_spelledParts

/-- The empty entry of `S` is completed by a later one, and of two undeclared characters the first
given is told, though its head is not the least and its alternative not the first that is bad. -/
theorem split_entries_answered :
    (∃ g, ofStrings (.ofList ['S']) (.ofList ['a', 'b'])
        [('S', []), ('S', ["a"]), ('S', ["bS"])] 'S' = .ok g ∧
      g.alternatives? 'S' = some [[.terminal 'a'], [.terminal 'b', .nonterminal 'S']]) ∧
    ∃ front head c back, [('X', 'z'), ('A', 'y')] = front ++ (head, c) :: back ∧
      ofStrings (.ofList ['S']) (.ofList ['a']) [('S', [""]), ('X', ["z"]), ('A', ["y"])] 'T' =
        .error (.undeclaredSymbol head c) := by
  constructor
  · have hok : (ofStrings (.ofList ['S']) (.ofList ['a', 'b'])
        [('S', []), ('S', ["a"]), ('S', ["bS"])] 'S').isOk = true := by decide +kernel
    obtain ⟨_, hbodies, _⟩ := ofStrings_answered (.ofList ['S']) (.ofList ['a', 'b'])
      [('S', []), ('S', ["a"]), ('S', ["bS"])] 'S'
    cases hg : ofStrings (.ofList ['S']) (.ofList ['a', 'b'])
        [('S', []), ('S', ["a"]), ('S', ["bS"])] 'S' with
    | error e =>
      rw [hg] at hok
      cases hok
    | ok g =>
      refine ⟨g, rfl, ?_⟩
      rw [(hbodies g hg).2.2.2]
      decide +kernel
  · obtain ⟨_, _, hstray, _⟩ := ofStrings_answered (.ofList ['S']) (.ofList ['a'])
      [('S', [""]), ('X', ["z"]), ('A', ["y"])] 'T'
    obtain ⟨front, head, c, back, hs, _, _, _, he⟩ := hstray ⟨('X', 'z'), by decide +kernel⟩
    exact ⟨front, head, c, back, hs, he⟩

end CharGrammar.Grammar
