import CharGrammar.Automaton.OfGrammar
import CharGrammar.Proofs.Tables

namespace CharGrammar

/-- The edge of an alternative of `x`: `tY` leads on `t` to `Y`, and `t` alone back to `x`.
Alternatives of any other shape have none. -/
inductive Alternative.Edge (x : Char) : Alternative → Char → Char → Prop
  | move (t y : Char) : Edge x [.terminal t, .nonterminal y] t y
  | loop (t : Char) : Edge x [.terminal t] t x

namespace Grammar

def Edge (g : Grammar) (x t y : Char) : Prop :=
  ∃ body, g.alternatives? x = some body ∧ ∃ alternative ∈ body, Alternative.Edge x alternative t y

/-- Only the last alternative of `x` with an edge on `t` counts. -/
def LastEdge (g : Grammar) (x t y : Char) : Prop :=
  ∃ earlier alternative later, g.alternatives? x = some (earlier ++ alternative :: later) ∧
    Alternative.Edge x alternative t y ∧
    ∀ other ∈ later, ∀ z, ¬ Alternative.Edge x other t z

variable {g : Grammar} {x t y : Char}

theorem LastEdge.edge (h : g.LastEdge x t y) : g.Edge x t y := by
  obtain ⟨earlier, alternative, later, hb, he, _⟩ := h
  exact ⟨_, hb, alternative, by simp, he⟩

/-- An edge joins declared symbols, each of its own kind. -/
theorem Edge.declared (h : g.Edge x t y) :
    x ∈ g.nonterminals ∧ t ∈ g.terminals ∧ y ∈ g.nonterminals := by
  obtain ⟨body, hb, alternative, hm, he⟩ := h
  have hv := validRule hb
  have hd := hv.declared alternative hm
  cases he with
  | move => exact ⟨hv.head_mem, hd (.terminal t) (by simp), hd (.nonterminal y) (by simp)⟩
  | loop => exact ⟨hv.head_mem, hd (.terminal t) (by simp), hv.head_mem⟩

end Grammar

namespace Automaton

theorem edge?_eq_some_iff {x t y : Char} {alternative : Alternative} :
    edge? x alternative = some (t, y) ↔ Alternative.Edge x alternative t y := by
  constructor
  · intro h
    unfold edge? at h
    split at h
    · cases h
      exact .move _ _
    · cases h
      exact .loop _
    · cases h
  · intro h
    cases h <;> rfl

/-- Where a production leads from `x` on `t`. -/
def target? (x t : Char) (p : Char × Alternative) : Option Char :=
  if p.1 = x then (edge? x p.2).bind fun (s, y) => if s = t then some y else none else none

theorem target?_eq_some_iff {x t y : Char} {p : Char × Alternative} :
    target? x t p = some y ↔ p.1 = x ∧ Alternative.Edge x p.2 t y := by
  rw [← edge?_eq_some_iff]
  unfold target?
  split
  · next hx => simp [hx, Option.bind_eq_some_iff]
  · next hx => simp [hx]

theorem target?_eq_none_of_ne {x t : Char} {p : Char × Alternative} (h : p.1 ≠ x) :
    target? x t p = none := by
  simp [target?, h]

/-- Adds the transition of a production, if it has one, over any that was there. -/
def addEdge (transitions : Transitions) (p : Char × Alternative) : Transitions :=
  match edge? p.1 p.2 with
  | none => transitions
  | some (t, y) => transitions.insert (p.1, t) y

theorem get?_addEdge {transitions : Transitions} {p : Char × Alternative} {x t : Char} :
    (addEdge transitions p).get? (x, t) = (target? x t p).or (transitions.get? (x, t)) := by
  obtain ⟨head, alternative⟩ := p
  unfold addEdge target?
  by_cases hx : head = x
  · subst hx
    cases he : edge? head alternative with
    | none => simp
    | some e =>
      obtain ⟨s, y⟩ := e
      by_cases hs : s = t
      · subst hs
        simp
      · have hne : (head, t) ≠ (head, s) := by
          intro h
          exact hs (Prod.mk.inj h).2.symm
        simp [hs, Table.get?_insert_ne hne]
  · cases he : edge? head alternative with
    | none => simp [hx]
    | some e =>
      have hne : (x, t) ≠ (head, e.1) := by
        intro h
        exact hx (Prod.mk.inj h).1.symm
      simp [hx, Table.get?_insert_ne hne]

/-- The last target stands. -/
theorem get?_foldl_addEdge {transitions : Transitions} {productions : List (Char × Alternative)}
    {x t : Char} :
    (productions.foldl addEdge transitions).get? (x, t) =
      (productions.filterMap (target? x t)).getLast?.or (transitions.get? (x, t)) := by
  induction productions generalizing transitions with
  | nil => rfl
  | cons p rest ih =>
    rw [List.foldl_cons, ih, get?_addEdge]
    cases ht : target? x t p with
    | none => simp [ht]
    | some y =>
      cases hl : (rest.filterMap (target? x t)).getLast? <;> simp [ht, hl, List.getLast?_cons]

/-- The conflict of a production with the transitions that are there already. -/
def clash? (transitions : Transitions) (p : Char × Alternative) : Option AutomatonError :=
  (edge? p.1 p.2).bind fun (t, y) =>
    (transitions.get? (p.1, t)).bind fun former =>
      if former = y then none else some (.conflict p.1 t former y)

section Connect

variable {policy : OnConflict} {transitions final : Transitions} {p : Char × Alternative}
  {rest productions : List (Char × Alternative)} {x t y : Char}

/-- There is no conflict if no target changes. -/
theorem clash?_eq_none_iff :
    clash? transitions p = none ↔ ∀ x t y former, target? x t p = some y →
      transitions.get? (x, t) = some former → former = y := by
  simp only [clash?, target?_eq_some_iff, ← edge?_eq_some_iff]
  cases he : edge? p.1 p.2 with
  | none =>
    refine ⟨?_, fun _ => rfl⟩
    intro _ x t y former hy
    obtain ⟨rfl, hy⟩ := hy
    rw [he] at hy
    cases hy
  | some e =>
    obtain ⟨t, y⟩ := e
    simp only [Option.bind_some]
    constructor
    · intro h x' t' y' former hy hf
      obtain ⟨rfl, hy⟩ := hy
      rw [he] at hy
      cases hy
      rw [hf] at h
      simpa using h
    · intro h
      cases hf : transitions.get? (p.1, t) with
      | none => rfl
      | some former => exact if_pos (h p.1 t y former ⟨rfl, he⟩ hf)

theorem connect_replace_cons :
    (connect .replace transitions (p :: rest)).value =
      (connect .replace (addEdge transitions p) rest).value := by
  obtain ⟨head, alternative⟩ := p
  rw [connect, addEdge]
  cases edge? head alternative with
  | none => rfl
  | some e =>
    dsimp only
    cases transitions.get? (head, e.1) with
    | none => rfl
    | some former =>
      dsimp only
      split <;> rfl

theorem connect_reject_cons :
    (connect .reject transitions (p :: rest)).value =
      match clash? transitions p with
      | none => (connect .reject (addEdge transitions p) rest).value
      | some e => .error e := by
  obtain ⟨head, alternative⟩ := p
  rw [connect, addEdge, clash?]
  cases edge? head alternative with
  | none => rfl
  | some e =>
    dsimp only [Option.bind_some]
    cases transitions.get? (head, e.1) with
    | none => rfl
    | some former =>
      dsimp only [Option.bind_some]
      split <;> rfl

theorem connect_reject_cons_ok (h : (connect .reject transitions (p :: rest)).value = .ok final) :
    clash? transitions p = none ∧
      (connect .reject (addEdge transitions p) rest).value = .ok final := by
  rw [connect_reject_cons] at h
  cases hc : clash? transitions p with
  | none =>
    rw [hc] at h
    exact ⟨rfl, h⟩
  | some e =>
    rw [hc] at h
    cases h

theorem connect_replace_eq :
    (connect .replace transitions productions).value =
      .ok (productions.foldl addEdge transitions) := by
  induction productions generalizing transitions with
  | nil => rfl
  | cons p rest ih => rw [connect_replace_cons, ih, List.foldl_cons]

/-- Under either policy the transitions are the edges in order. -/
theorem connect_eq (h : (connect policy transitions productions).value = .ok final) :
    final = productions.foldl addEdge transitions := by
  cases policy with
  | replace =>
    rw [connect_replace_eq] at h
    exact (Except.ok.inj h).symm
  | reject =>
    induction productions generalizing transitions with
    | nil =>
      cases h
      rfl
    | cons p rest ih => exact ih (connect_reject_cons_ok h).2

/-- Where conflicts are rejected, a target once there stays. -/
theorem connect_reject_keeps (h : (connect .reject transitions productions).value = .ok final)
    (hy : transitions.get? (x, t) = some y) : final.get? (x, t) = some y := by
  induction productions generalizing transitions with
  | nil =>
    cases h
    exact hy
  | cons p rest ih =>
    obtain ⟨hc, hr⟩ := connect_reject_cons_ok h
    apply ih hr
    rw [get?_addEdge]
    cases ht : target? x t p with
    | none => exact hy
    | some z => exact congrArg some (clash?_eq_none_iff.mp hc x t z y ht hy).symm

theorem connect_reject_holds (h : (connect .reject transitions productions).value = .ok final)
    (hm : p ∈ productions) (hy : target? x t p = some y) : final.get? (x, t) = some y := by
  induction productions generalizing transitions with
  | nil => cases hm
  | cons q rest ih =>
    obtain ⟨_, hr⟩ := connect_reject_cons_ok h
    rcases List.mem_cons.mp hm with rfl | hm
    · apply connect_reject_keeps hr
      rw [get?_addEdge, hy]
      rfl
    · exact ih hr hm

end Connect

section OfGrammar

variable {g : Grammar} {a : Automaton} {policy : OnConflict} {x t y : Char}

/-- What is proposed as the automaton of a grammar, once its transitions are known. -/
def Parts.over (g : Grammar) (transitions : Transitions) : Parts :=
  ⟨g.nonterminals, g.terminals, transitions, g.start, g.nonterminals.filter (· ≠ g.start)⟩

theorem value_ofGrammar :
    (ofGrammar g policy).value =
      (connect policy ∅ g.productions).value.bind fun transitions =>
        ofParts (.over g transitions) := by
  unfold ofGrammar
  dsimp only
  split
  · next he => exact he.symm
  · next ha => exact ha.symm

theorem connect_of_ofGrammar (h : (ofGrammar g policy).value = .ok a) :
    (connect policy ∅ g.productions).value = .ok a.transitions ∧
      a.toParts = .over g a.transitions := by
  rw [value_ofGrammar] at h
  cases hc : (connect policy ∅ g.productions).value with
  | error e =>
    rw [hc] at h
    cases h
  | ok transitions =>
    rw [hc] at h
    have hp : a.toParts = .over g transitions := Proposal.check_eq_ok_iff.mp h
    have ht : a.transitions = transitions := congrArg Parts.transitions hp
    rw [ht]
    exact ⟨rfl, hp⟩

theorem mem_accepting_iff (h : (ofGrammar g policy).value = .ok a) {q : Char} :
    q ∈ a.accepting ↔ q ∈ g.nonterminals ∧ q ≠ g.start := by
  have hp := congrArg Parts.accepting (connect_of_ofGrammar h).2
  rw [hp]
  simp [Parts.over]

theorem start_eq (h : (ofGrammar g policy).value = .ok a) : a.start = g.start :=
  congrArg Parts.start (connect_of_ofGrammar h).2

theorem alphabet_eq (h : (ofGrammar g policy).value = .ok a) : a.alphabet = g.terminals :=
  congrArg Parts.alphabet (connect_of_ofGrammar h).2

/-- Folding the productions of a grammar leaves the last target among the alternatives of a
nonterminal. -/
theorem get?_productions :
    (g.productions.foldl addEdge ∅).get? (x, t) =
      (((g.alternatives? x).getD []).filterMap fun alternative =>
        target? x t (x, alternative)).getLast? := by
  rw [get?_foldl_addEdge, Grammar.filterMap_productions fun _ => target?_eq_none_of_ne]
  simp

theorem getLast?_targets_iff :
    (((g.alternatives? x).getD []).filterMap fun alternative =>
      target? x t (x, alternative)).getLast? = some y ↔ g.LastEdge x t y := by
  rw [List.getLast?_filterMap, List.findSome?_eq_some_iff]
  constructor
  · intro h
    obtain ⟨later, alternative, earlier, hs, he, hn⟩ := h
    cases hb : g.alternatives? x with
    | none => simp [hb] at hs
    | some body =>
      have hs' := congrArg List.reverse hs
      simp only [hb, Option.getD_some, List.reverse_reverse, List.reverse_append,
        List.reverse_cons, List.append_assoc, List.singleton_append] at hs'
      refine ⟨earlier.reverse, alternative, later.reverse, hs' ▸ hb,
        (target?_eq_some_iff.mp he).2, ?_⟩
      intro other ho z hz
      have hsome : target? x t (x, other) = some z := target?_eq_some_iff.mpr ⟨rfl, hz⟩
      rw [hn other (List.mem_reverse.mp ho)] at hsome
      cases hsome
  · intro h
    obtain ⟨earlier, alternative, later, hb, he, hn⟩ := h
    refine ⟨later.reverse, alternative, earlier.reverse, by simp [hb],
      target?_eq_some_iff.mpr ⟨rfl, he⟩, ?_⟩
    intro other ho
    cases ht : target? x t (x, other) with
    | none => rfl
    | some z =>
      exact absurd (target?_eq_some_iff.mp ht).2 (hn other (List.mem_reverse.mp ho) z)

/-- Under either policy a transition follows the last edge of its state on its symbol. -/
theorem next?_eq_some_iff_lastEdge (h : (ofGrammar g policy).value = .ok a) :
    a.next? x t = some y ↔ g.LastEdge x t y := by
  have hc := connect_eq (connect_of_ofGrammar h).1
  rw [← getLast?_targets_iff, ← get?_productions, ← hc, next?]

/-- Where conflicts are rejected, the transitions are all the edges. -/
theorem next?_eq_some_iff_edge (h : (ofGrammar g .reject).value = .ok a) :
    a.next? x t = some y ↔ g.Edge x t y := by
  constructor
  · intro hn
    exact ((next?_eq_some_iff_lastEdge h).mp hn).edge
  · intro h
    obtain ⟨body, hb, alternative, hm, he⟩ := h
    have hp : (x, alternative) ∈ g.productions := Grammar.mem_productions_iff.mpr ⟨body, hb, hm⟩
    exact connect_reject_holds (connect_of_ofGrammar h).1 hp (target?_eq_some_iff.mpr ⟨rfl, he⟩)

/-- Transitions that follow edges of the grammar join states of its automaton. -/
theorem Parts.over_valid {transitions : Transitions}
    (h : ∀ x t y, transitions.get? (x, t) = some y → g.Edge x t y) :
    (Parts.over g transitions).Valid where
  start_mem := g.valid.start_mem
  accepting_subset := by
    intro q hq
    exact (OrderedSet.mem_filter.mp hq).1
  transitions_valid := by
    intro e he
    obtain ⟨⟨x, t⟩, y⟩ := e
    obtain ⟨hx, ht, hy⟩ := (h x t y (Table.get?_eq_some_iff.mpr he)).declared
    exact ⟨ht, hx, hy⟩

/-- Once the transitions are there, nothing else can be wrong with the automaton. -/
theorem ofGrammar_of_connect {transitions : Transitions}
    (h : (connect policy ∅ g.productions).value = .ok transitions) :
    ∃ a, (ofGrammar g policy).value = .ok a ∧ a.toParts = .over g transitions := by
  have hv : (Parts.over g transitions).Valid := by
    apply Parts.over_valid
    intro x t y hy
    rw [connect_eq h, get?_productions, getLast?_targets_iff] at hy
    exact hy.edge
  refine ⟨⟨_, hv⟩, ?_, rfl⟩
  rw [value_ofGrammar, h]
  exact Proposal.check_eq_ok_iff.mpr rfl

/-- Where the last target wins there is always an automaton. -/
theorem ofGrammar_replace_ok : ∃ a, (ofGrammar g .replace).value = .ok a := by
  obtain ⟨a, ha, _⟩ := ofGrammar_of_connect (g := g) connect_replace_eq
  exact ⟨a, ha⟩

end OfGrammar

end Automaton

end CharGrammar
