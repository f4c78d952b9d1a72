import CharGrammar.Proofs.StatedRules

namespace CharGrammar

theorem pairwise_zipIdx {α : Type} {xs : List α} {n : Nat} :
    (xs.zipIdx n).Pairwise fun a b => a.2 < b.2 := by
  rw [← List.pairwise_map, List.zipIdx_map_snd]
  exact List.pairwise_lt_range'

namespace RuleFile

open Definitions (ofRules)

/-- A nonterminal at a place in the joined rules: under a head, in an alternative and at a position
there, both counted from 0. -/
structure Use where
  head : Char
  alternative : Nat
  position : Nat
  nonterminal : Char

namespace Use

/-- A nonterminal that stands at its place and has no rule. -/
structure Undefined (rules : List (Located Rule)) (u : Use) : Prop where
  stands : ∃ alternative, (bodyFor u.head rules)[u.alternative]? = some alternative ∧
    alternative[u.position]? = some (.nonterminal u.nonterminal)
  no_rule : ∀ rule ∈ rules, rule.item.head ≠ u.nonterminal

/-- Places are ordered by the code point of the head, then by the alternative, then by the
position. -/
def Before (u v : Use) : Prop :=
  u.head.toNat < v.head.toNat ∨
    u.head = v.head ∧ (u.alternative < v.alternative ∨
      u.alternative = v.alternative ∧ u.position < v.position)

/-- A fault that names the nonterminal of a use, located at the first line that states a rule of its
head. -/
def ToldBy (text : List Char) (u : Use) (fault : Located RuleFault) : Prop :=
  fault.item = .undefined u.nonterminal ∧
    ∃ line number, (ruleLines text).find?
      (fun line => (Rule.read line.1).toOption.any (·.head = u.head)) = some (line, number) ∧
        fault.location = .inText number 0

end Use

/-- The use of a symbol at a place, if it is a nonterminal without a rule. -/
def undefinedUse? (definitions : Definitions) (head : Char) (alternative : Nat) :
    Symbol × Nat → Option Use
  | (.terminal _, _) => none
  | (.nonterminal c, position) =>
    if (definitions.get? c).isNone then some ⟨head, alternative, position, c⟩ else none

/-- The undefined uses in the alternatives of one head. -/
def usesUnder (definitions : Definitions) (head : Char) (body : Body) : List Use :=
  body.zipIdx.flatMap fun (alternative, i) =>
    alternative.zipIdx.filterMap (undefinedUse? definitions head i)

/-- The undefined uses of all heads in order. -/
def undefinedUsesOf (definitions : Definitions) : List Use :=
  definitions.entries.flatMap fun (head, d) => usesUnder definitions head d.body

variable {definitions : Definitions} {rules : List (Located Rule)} {head : Char} {body : Body}
  {i : Nat} {s : Symbol × Nat} {u : Use} {text : List Char}

section Listing

theorem undefinedUse?_eq_some_iff :
    undefinedUse? definitions head i s = some u ↔
      s.1 = .nonterminal u.nonterminal ∧ definitions.get? u.nonterminal = none ∧
        u.head = head ∧ u.alternative = i ∧ u.position = s.2 := by
  obtain ⟨x, j, k, c⟩ := u
  obtain ⟨symbol, position⟩ := s
  cases symbol with
  | terminal t => simp [undefinedUse?]
  | nonterminal y =>
    simp only [undefinedUse?, Option.isNone_iff_eq_none, Option.ite_none_right_eq_some,
      Option.some.injEq, Use.mk.injEq, Symbol.nonterminal.injEq]
    constructor
    · rintro ⟨hy, rfl, rfl, rfl, rfl⟩
      exact ⟨rfl, hy, rfl, rfl, rfl⟩
    · rintro ⟨rfl, hy, rfl, rfl, rfl⟩
      exact ⟨hy, rfl, rfl, rfl, rfl⟩

theorem mem_usesUnder_iff :
    u ∈ usesUnder definitions head body ↔
      u.head = head ∧ definitions.get? u.nonterminal = none ∧
        ∃ alternative, body[u.alternative]? = some alternative ∧
          alternative[u.position]? = some (.nonterminal u.nonterminal) := by
  simp only [usesUnder, List.mem_flatMap, List.mem_filterMap, undefinedUse?_eq_some_iff]
  constructor
  · rintro ⟨⟨alternative, i⟩, ha, ⟨s, j⟩, hs, rfl, hd, hh, rfl, rfl⟩
    exact ⟨hh, hd, alternative, List.mem_zipIdx_iff_getElem?.mp ha,
      List.mem_zipIdx_iff_getElem?.mp hs⟩
  · rintro ⟨hh, hd, alternative, ha, hs⟩
    exact ⟨(alternative, u.alternative), List.mem_zipIdx_iff_getElem?.mpr ha, (_, u.position),
      List.mem_zipIdx_iff_getElem?.mpr hs, rfl, hd, hh, rfl, rfl⟩

theorem mem_undefinedUsesOf_iff :
    u ∈ undefinedUsesOf (ofRules rules) ↔ u.Undefined rules := by
  have hnone : (ofRules rules).get? u.nonterminal = none ↔
      ∀ rule ∈ rules, rule.item.head ≠ u.nonterminal := by
    rw [Definitions.get?_ofRules, Option.map_eq_none_iff, List.head?_eq_none_iff,
      rulesFor_eq_nil_iff]
  simp only [undefinedUsesOf, List.mem_flatMap, mem_usesUnder_iff, hnone]
  constructor
  · rintro ⟨⟨head, d⟩, he, rfl, hn, hs⟩
    rw [Definitions.body_of_get? (Table.get?_eq_some_iff.mpr he)] at hs
    exact ⟨hs, hn⟩
  · rintro ⟨hs, hn⟩
    obtain ⟨alternative, ha, _⟩ := hs
    have hk : u.head ∈ (ofRules rules).keys := by
      rw [Definitions.mem_keys_ofRules_iff]
      intro he
      rw [bodyFor, he] at ha
      cases ha
    obtain ⟨d, hd⟩ := Table.mem_keys_iff.mp hk
    refine ⟨(u.head, d), Table.get?_eq_some_iff.mp hd, rfl, hn, ?_⟩
    rw [Definitions.body_of_get? hd]
    exact ⟨alternative, ha, ‹_›⟩

theorem pairwise_usesUnder : (usesUnder definitions head body).Pairwise Use.Before := by
  rw [usesUnder, List.pairwise_flatMap]
  constructor
  · rintro ⟨alternative, i⟩ _
    rw [List.pairwise_filterMap]
    refine pairwise_zipIdx.imp ?_
    intro s t hlt u hu v hv
    obtain ⟨_, _, hhu, hau, hpu⟩ := undefinedUse?_eq_some_iff.mp hu
    obtain ⟨_, _, hhv, hav, hpv⟩ := undefinedUse?_eq_some_iff.mp hv
    exact .inr ⟨hhu.trans hhv.symm, .inr ⟨hau.trans hav.symm, by rwa [hpu, hpv]⟩⟩
  · refine pairwise_zipIdx.imp ?_
    intro a b hlt u hu v hv
    obtain ⟨_, _, hu⟩ := List.mem_filterMap.mp hu
    obtain ⟨_, _, hv⟩ := List.mem_filterMap.mp hv
    obtain ⟨_, _, hhu, hau, _⟩ := undefinedUse?_eq_some_iff.mp hu
    obtain ⟨_, _, hhv, hav, _⟩ := undefinedUse?_eq_some_iff.mp hv
    exact .inr ⟨hhu.trans hhv.symm, .inl (by rwa [hau, hav])⟩

theorem pairwise_undefinedUsesOf : (undefinedUsesOf definitions).Pairwise Use.Before := by
  rw [undefinedUsesOf, List.pairwise_flatMap]
  refine ⟨fun _ _ => pairwise_usesUnder, definitions.entries_pairwise.imp ?_⟩
  intro d e hlt u hu v hv
  refine .inl ?_
  rw [(mem_usesUnder_iff.mp hu).1, (mem_usesUnder_iff.mp hv).1]
  exact hlt

end Listing

section Faults

/-- Without their places, the undefined uses are the nonterminals that are looked up in vain. -/
theorem nonterminals_usesUnder (head : Char) :
    (usesUnder definitions head body).map Use.nonterminal =
      body.flatMap fun alternative =>
        (Form.nonterminals alternative).filter fun c => (definitions.get? c).isNone := by
  have ha (alternative : Alternative) (i : Nat) :
      (alternative.zipIdx.filterMap (undefinedUse? definitions head i)).map Use.nonterminal =
        (Form.nonterminals alternative).filter fun c => (definitions.get? c).isNone := by
    rw [Form.nonterminals, List.filter_filterMap, List.map_filterMap]
    conv_rhs => rw [← List.zipIdx_map_fst 0 alternative, List.filterMap_map]
    congr 1
    funext s
    obtain ⟨symbol, position⟩ := s
    cases symbol with
    | terminal t => rfl
    | nonterminal c => cases hd : definitions.get? c <;> simp [undefinedUse?, hd, Option.filter]
  rw [usesUnder, List.map_flatMap]
  conv_rhs => rw [← List.zipIdx_map_fst 0 body, List.flatMap_map]
  exact List.flatMap_congr fun e _ => ha e.1 e.2

theorem forall₂_flatMap {α β γ : Type} {R : β → γ → Prop} {f : α → List β} {g : α → List γ}
    {xs : List α} (h : ∀ x ∈ xs, List.Forall₂ R (f x) (g x)) :
    List.Forall₂ R (xs.flatMap f) (xs.flatMap g) := by
  induction xs with
  | nil => exact .nil
  | cons x rest ih =>
    obtain ⟨hx, hrest⟩ := List.forall_mem_cons.mp h
    exact List.rel_append hx (ih hrest)

/-- Each undefined use has one fault, located where its head is defined. -/
theorem forall₂_undefinedUses :
    List.Forall₂
      (fun (u : Use) fault => ∃ d, definitions.get? u.head = some d ∧
        fault = ⟨d.location, .undefined u.nonterminal⟩)
      (undefinedUsesOf definitions) definitions.undefinedUses := by
  rw [undefinedUsesOf, Definitions.undefinedUses, Table.values, List.flatMap_map]
  refine forall₂_flatMap ?_
  rintro ⟨head, d⟩ hd
  simp only [← List.map_flatMap, ← nonterminals_usesUnder head, List.map_map]
  rw [List.forall₂_map_right_iff, List.forall₂_same]
  intro u hu
  refine ⟨d, ?_, rfl⟩
  rw [(mem_usesUnder_iff.mp hu).1]
  exact Table.get?_eq_some_iff.mpr hd

/-- The first of the stated rules of a head is that of the first line that states one. -/
theorem find?_line_of_head? {x : Char} {first : Located Rule}
    (h : (rulesFor x (statedRules text)).head? = some first) :
    ∃ line number, (ruleLines text).find?
      (fun line => (Rule.read line.1).toOption.any (·.head = x)) = some (line, number) ∧
        first.location = .inText number 0 := by
  rw [rulesFor, List.head?_filter, statedRules, List.find?_filterMap] at h
  simp only [Option.any_map] at h
  obtain ⟨⟨line, number⟩, hline, hfirst⟩ := Option.bind_eq_some_iff.mp h
  obtain ⟨rule, _, rfl⟩ := Option.map_eq_some_iff.mp hfirst
  exact ⟨line, number, hline, rfl⟩

theorem forall₂_toldBy :
    List.Forall₂ (Use.ToldBy text) (undefinedUsesOf (ofRules (statedRules text)))
      (ofRules (statedRules text)).undefinedUses := by
  refine forall₂_undefinedUses.imp ?_
  rintro u _ ⟨d, hd, rfl⟩
  rw [Definitions.get?_ofRules] at hd
  obtain ⟨first, hf, rfl⟩ := Option.map_eq_some_iff.mp hd
  exact ⟨rfl, find?_line_of_head? hf⟩

theorem not_undefined_of_grammarOf {file : String} {faults : RuleFaults}
    (hu : (ofRules rules).undefinedUses = []) (h : grammarOf file rules = .error faults) :
    ∀ fault ∈ faults, ∀ c, fault.item ≠ .undefined c := by
  intro fault hf c hc
  cases rules with
  | nil =>
    cases h
    cases List.mem_singleton.mp hf
    cases hc
  | cons first rest =>
    rw [grammarOf_cons hu] at h
    cases hp : Grammar.ofParts ((ofRules (first :: rest)).parts first.item.head) with
    | ok g =>
      rw [hp] at h
      cases h
    | error e =>
      rw [hp] at h
      cases h
      cases List.mem_singleton.mp hf
      cases hc

end Faults

/-- A text without malformed lines is told of one fault for each place in its joined rules where a
nonterminal without a rule stands, in the order of these places, each at the first line that states
a rule of the head. It is told of nothing else then, and where there is no such place no fault names
a nonterminal. -/
theorem undefined_told_in_order (text : String) (hm : malformedLines text.toList = []) :
    ∃ uses : List Use, uses.Pairwise Use.Before ∧
      (∀ u, u ∈ uses ↔ u.Undefined (statedRules text.toList)) ∧
      (uses ≠ [] → ∃ faults, parse text = .error faults ∧
        List.Forall₂ (Use.ToldBy text.toList) uses faults) ∧
      (uses = [] → ∀ faults, parse text = .error faults →
        ∀ fault ∈ faults, ∀ c, fault.item ≠ .undefined c) := by
  have htold : List.Forall₂ (Use.ToldBy text.toList)
      (undefinedUsesOf (ofRules (statedRules text.toList))) _ := forall₂_toldBy
  refine ⟨_, pairwise_undefinedUsesOf, fun _ => mem_undefinedUsesOf_iff, ?_, ?_⟩
  · intro hne
    have hu : (ofRules (statedRules text.toList)).undefinedUses ≠ [] := by
      intro hn
      rw [hn] at htold
      exact hne (List.forall₂_nil_right_iff.mp htold)
    rw [parse_of_wellFormed hm, grammarOf_of_undefinedUses hu]
    exact ⟨_, rfl, htold⟩
  · intro hn faults hp
    rw [hn] at htold
    rw [parse_of_wellFormed hm] at hp
    exact not_undefined_of_grammarOf (List.forall₂_nil_left_iff.mp htold) hp

/-- A use on a later line is told at the first line of its head, after those under lesser heads. -/
theorem repeated_use_told :
    malformedLines "S = aX\nA = Y\nS = XA\n".toList = [] ∧
      ∃ uses : List Use, uses.Pairwise Use.Before ∧
        (∀ u, u ∈ uses ↔ u.Undefined (statedRules "S = aX\nA = Y\nS = XA\n".toList)) ∧
        List.Forall₂ (Use.ToldBy "S = aX\nA = Y\nS = XA\n".toList) uses
          [⟨.inText 2 0, .undefined 'Y'⟩, ⟨.inText 1 0, .undefined 'X'⟩,
            ⟨.inText 1 0, .undefined 'X'⟩] := by
  have hm : malformedLines "S = aX\nA = Y\nS = XA\n".toList = [] := by decide +kernel
  have hp : parse "S = aX\nA = Y\nS = XA\n" = .error [⟨.inText 2 0, .undefined 'Y'⟩,
      ⟨.inText 1 0, .undefined 'X'⟩, ⟨.inText 1 0, .undefined 'X'⟩] := by decide +kernel
  obtain ⟨uses, hs, hu, hsome, hnone⟩ := undefined_told_in_order _ hm
  have hne : uses ≠ [] := fun hn => hnone hn _ hp _ List.mem_cons_self 'Y' rfl
  obtain ⟨faults, hf, htold⟩ := hsome hne
  rw [hp] at hf
  cases hf
  exact ⟨hm, uses, hs, hu, htold⟩

end RuleFile

end CharGrammar
