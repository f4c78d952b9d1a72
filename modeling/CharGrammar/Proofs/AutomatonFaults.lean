import CharGrammar.Proofs.RunEnds

namespace CharGrammar.Automaton

namespace Parts

/-- The first thing that is wrong with a transition. -/
inductive BadTransition (p : Parts) (source symbol target : Char) : AutomatonError → Prop
  | symbol (unknown : symbol ∉ p.alphabet) :
      BadTransition p source symbol target (.symbolUnknown symbol)
  | source (symbol_mem : symbol ∈ p.alphabet) (unknown : source ∉ p.states) :
      BadTransition p source symbol target (.stateUnknown source)
  | target (symbol_mem : symbol ∈ p.alphabet) (source_mem : source ∈ p.states)
      (unknown : target ∉ p.states) : BadTransition p source symbol target (.stateUnknown target)

/-- The first thing that is wrong with proposed parts: the start state, then the least accepting
state, then the transitions by their sources and symbols. -/
inductive FirstFault (p : Parts) : AutomatonError → Prop
  | start (unknown : p.start ∉ p.states) : FirstFault p (.startUnknown p.start)
  | accepting {q : Char} (start_mem : p.start ∈ p.states) (mem : q ∈ p.accepting)
      (unknown : q ∉ p.states) (least : ∀ r ∈ p.accepting, r ∉ p.states → q ≤ r) :
      FirstFault p (.stateUnknown q)
  | transition {x t y : Char} {e : AutomatonError} (start_mem : p.start ∈ p.states)
      (accepting_subset : ∀ q ∈ p.accepting, q ∈ p.states)
      (get : p.transitions.get? (x, t) = some y) (bad : p.BadTransition x t y e)
      (before : ∀ x' t' y', p.transitions.get? (x', t') = some y' → x' < x ∨ x' = x ∧ t' < t →
        p.ValidTransition x' t' y') :
      FirstFault p e

variable {p : Parts} {x t y : Char} {e : AutomatonError}

theorem transitionFault?_eq_some_iff :
    p.transitionFault? x t y = some e ↔ p.BadTransition x t y e := by
  constructor
  · intro h
    unfold transitionFault? at h
    split at h
    · next ht =>
      cases h
      exact .symbol ht
    · next ht =>
      split at h
      · next hx =>
        cases h
        exact .source (Decidable.not_not.mp ht) hx
      · next hx =>
        split at h
        · next hy =>
          cases h
          exact .target (Decidable.not_not.mp ht) (Decidable.not_not.mp hx) hy
        · cases h
  · intro h
    cases h with
    | symbol unknown => simp [transitionFault?, unknown]
    | source symbol_mem unknown => simp [transitionFault?, symbol_mem, unknown]
    | target symbol_mem source_mem unknown =>
      simp [transitionFault?, symbol_mem, source_mem, unknown]

/-- The transitions are looked through by their sources and then by their symbols. -/
theorem findSome?_transitionFault?_iff :
    p.transitions.entries.findSome? (fun e => p.transitionFault? e.1.1 e.1.2 e.2) = some e ↔
      ∃ x t y, p.transitions.get? (x, t) = some y ∧ p.BadTransition x t y e ∧
        ∀ x' t' y', p.transitions.get? (x', t') = some y' → x' < x ∨ x' = x ∧ t' < t →
          p.ValidTransition x' t' y' := by
  simp only [Table.findSome?_eq_some_iff, Prod.exists, Prod.forall, transitionFault?_eq_some_iff,
    transitionFault?_eq_none_iff, Key.before_pair_iff]

theorem find?_unknown_iff {q : Char} :
    p.accepting.toList.find? (· ∉ p.states) = some q ↔
      q ∈ p.accepting ∧ q ∉ p.states ∧ ∀ r ∈ p.accepting, r ∉ p.states → q ≤ r := by
  simp only [OrderedSet.find?_eq_some_iff, decide_eq_true_eq, Key.not_before_char_iff]

theorem find?_unknown_eq_none_iff :
    p.accepting.toList.find? (· ∉ p.states) = none ↔ ∀ q ∈ p.accepting, q ∈ p.states := by
  simp only [List.find?_eq_none, OrderedSet.mem_toList, decide_eq_true_eq, Decidable.not_not]

theorem fault?_eq_some_iff : p.fault? = some e ↔ p.FirstFault e := by
  constructor
  · intro h
    unfold fault? at h
    split at h
    · next hs =>
      cases h
      exact .start hs
    · next hs =>
      have hstart := Decidable.not_not.mp hs
      split at h
      · next q hq =>
        cases h
        obtain ⟨hm, hu, hleast⟩ := find?_unknown_iff.mp hq
        exact .accepting hstart hm hu hleast
      · next hq =>
        obtain ⟨x, t, y, hget, hbad, hbefore⟩ := findSome?_transitionFault?_iff.mp h
        exact .transition hstart (find?_unknown_eq_none_iff.mp hq) hget hbad hbefore
  · intro h
    unfold fault?
    cases h with
    | start unknown => rw [if_pos unknown]
    | accepting start_mem mem unknown least =>
      rw [if_neg (not_not_intro start_mem), find?_unknown_iff.mpr ⟨mem, unknown, least⟩]
    | transition start_mem accepting_subset get bad before =>
      rw [if_neg (not_not_intro start_mem), find?_unknown_eq_none_iff.mpr accepting_subset]
      exact findSome?_transitionFault?_iff.mpr ⟨_, _, _, get, bad, before⟩

end Parts

variable {a : Automaton} {q last : Char} {word path : List Char}

/-- Following the transitions alone, from one state to the next, is walking along them. -/
theorem foldlM_next?_eq_some_iff :
    word.foldlM a.next? q = some last ↔ ∃ path, Walk a.Moves q word path last := by
  induction word generalizing q with
  | nil =>
    constructor
    · intro h
      cases h
      exact ⟨_, .stay _⟩
    · intro h
      obtain ⟨path, hw⟩ := h
      cases hw
      rfl
  | cons t rest ih =>
    rw [List.foldlM_cons, Option.bind_eq_bind, Option.bind_eq_some_iff]
    constructor
    · intro h
      obtain ⟨r, hr, hrest⟩ := h
      obtain ⟨path, hw⟩ := ih.mp hrest
      exact ⟨q :: path, .move hr hw⟩
    · intro h
      obtain ⟨path, hw⟩ := h
      cases hw with
      | move step rest => exact ⟨_, step, ih.mpr ⟨_, rest⟩⟩

theorem accepts_eq_foldlM :
    a.accepts word = (word.foldlM a.next? a.start).any (· ∈ a.accepting) := by
  rw [Bool.eq_iff_iff, accepts_iff_walk, Option.any_eq_true]
  simp only [foldlM_next?_eq_some_iff, decide_eq_true_eq]
  constructor
  · intro h
    obtain ⟨path, q, hw, hq⟩ := h
    exact ⟨q, ⟨path, hw⟩, hq⟩
  · intro h
    obtain ⟨q, ⟨path, hw⟩, hq⟩ := h
    exact ⟨path, q, hw, hq⟩

theorem mem_states_of_mem_path (h : Walk a.Moves q word path last) (hq : q ∈ a.states)
    {r : Char} (hr : r ∈ path) : r ∈ a.states := by
  induction h with
  | stay q => exact List.mem_singleton.mp hr ▸ hq
  | move step _ ih =>
    rcases List.mem_cons.mp hr with rfl | hr
    · exact hq
    · exact ih (next?_mem_states step) hr

theorem mem_states_of_mem_run {r : Char} (hr : r ∈ (a.run word).path) : r ∈ a.states := by
  obtain ⟨_, _, _, _, hw, _⟩ := a.run_stops word
  exact mem_states_of_mem_path hw a.valid.start_mem hr

/-- Parts make an automaton exactly if they are valid, and are refused for the first thing that is
wrong with them otherwise. The runs of an automaton stay among its states, and it accepts the words
that its transitions alone lead from the start to an accepting state. -/
theorem ofParts_keeps_runs_within :
    (∀ p : Parts, ((∃ a, ofParts p = .ok a) ↔ p.Valid) ∧
      (∀ a, ofParts p = .ok a ↔ a.toParts = p) ∧ ∀ e, ofParts p = .error e ↔ p.FirstFault e) ∧
    ∀ (a : Automaton) (word : List Char), (∀ q ∈ (a.run word).path, q ∈ a.states) ∧
      a.accepts word = (word.foldlM a.next? a.start).any (· ∈ a.accepting) := by
  refine ⟨?_, fun a word => ⟨fun q => mem_states_of_mem_run, accepts_eq_foldlM⟩⟩
  intro p
  refine ⟨Proposal.exists_check_iff, fun a => Proposal.check_eq_ok_iff, ?_⟩
  intro e
  exact Proposal.check_eq_error_iff.trans Parts.fault?_eq_some_iff

/-- Both transitions lead to a state that is none, and the first is on a symbol that is none. -/
def Parts.misjoined : Parts where
  states := .ofList ['S', 'A']
  alphabet := .ofList ['a']
  transitions := .ofList [(('S', 'a'), 'Q'), (('A', 'z'), 'Q')]
  start := 'S'
  accepting := .ofList ['A']

/-- The run below is stopped by a symbol outside the alphabet. -/
theorem misjoined_refused :
    Parts.misjoined.FirstFault (.symbolUnknown 'z') ∧
    (∃ a, ofParts alternating.toParts = .ok a) ∧
    (alternating.run ['a', 'c']).path = ['S', 'A'] ∧ 'A' ∈ alternating.states ∧
    alternating.accepts ['a', 'c'] =
      (['a', 'c'].foldlM alternating.next? 'S').any (· ∈ alternating.accepting) := by
  obtain ⟨hparts, hruns⟩ := ofParts_keeps_runs_within
  refine ⟨?_, ?_, by decide, ?_, (hruns alternating ['a', 'c']).2⟩
  · exact ((hparts .misjoined).2.2 (.symbolUnknown 'z')).mp rfl
  · exact (hparts alternating.toParts).1.mpr alternating.valid
  · exact (hruns alternating ['a', 'c']).1 'A' (by decide)

end CharGrammar.Automaton
