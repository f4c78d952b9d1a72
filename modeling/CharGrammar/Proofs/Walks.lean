import CharGrammar.Automaton.Run
import CharGrammar.Proofs.Edges

namespace CharGrammar

/-- A walk along labelled edges, with the word it spells, all its states and the last of them. -/
inductive Walk (edge : Char → Char → Char → Prop) : Char → List Char → List Char → Char → Prop
  | stay (q : Char) : Walk edge q [] [q] q
  | move {q t r last : Char} {word path : List Char} (step : edge q t r)
      (rest : Walk edge r word path last) : Walk edge q (t :: word) (q :: path) last

/-- A run that read all of a word and ended in a state. -/
structure Run.ReadsTo (r : Run) (word : List Char) (state : Char) : Prop where
  length : r.path.length = word.length + 1
  last : r.path.getLast? = some state
  outcome : r.outcome = .accepted ∨ r.outcome = .endedIn state

namespace Walk

variable {edge : Char → Char → Char → Prop} {q last : Char} {word path : List Char}

theorem length_path (h : Walk edge q word path last) : path.length = word.length + 1 := by
  induction h with
  | stay q => rfl
  | move _ _ ih => simp [ih]

theorem getLast?_path (h : Walk edge q word path last) : path.getLast? = some last := by
  induction h with
  | stay q => rfl
  | move _ _ ih => simp [List.getLast?_cons, ih]

end Walk

namespace Automaton

variable {a : Automaton} {q last start : Char} {position : Nat} {word path : List Char}
  {edge : Char → Char → Char → Prop}

/-- The transitions as edges. -/
def Moves (a : Automaton) (q t r : Char) : Prop := a.next? q t = some r

theorem Moves.symbol_mem {t r : Char} (h : a.Moves q t r) : t ∈ a.alphabet :=
  (a.valid.transitions_valid _ (Table.get?_eq_some_iff.mp h)).symbol_mem

theorem last_mem_states (h : Walk a.Moves q word path last) (hq : q ∈ a.states) :
    last ∈ a.states := by
  induction h with
  | stay q => exact hq
  | move step _ ih => exact ih (next?_mem_states step)

/-- A walk along the transitions is the run on its word. -/
theorem runFrom_eq_of_walk (h : Walk a.Moves q word path last) :
    a.runFrom q position word =
      ⟨path, if last ∈ a.accepting then .accepted else .endedIn last⟩ := by
  induction h generalizing position with
  | stay q => rfl
  | move step _ ih =>
    have hm := step.symbol_mem
    unfold Moves at step
    rw [runFrom, if_neg (not_not_intro hm), step]
    simp [ih]

/-- A run that is never stopped walks along the transitions. -/
theorem walk_of_length (h : (a.runFrom q position word).path.length = word.length + 1) :
    ∃ last, Walk a.Moves q word (a.runFrom q position word).path last := by
  induction word generalizing q position with
  | nil => exact ⟨q, .stay q⟩
  | cons t rest ih =>
    unfold runFrom at h ⊢
    split at h
    · simp at h
    · next hm =>
      rw [if_neg hm]
      cases hn : a.next? q t with
      | none => simp [hn] at h
      | some r =>
        simp only [hn, List.length_cons, Nat.add_right_cancel_iff] at h
        obtain ⟨last, hw⟩ := ih h
        exact ⟨last, .move hn hw⟩

theorem length_of_accepted (h : (a.runFrom q position word).outcome = .accepted) :
    (a.runFrom q position word).path.length = word.length + 1 := by
  induction word generalizing q position with
  | nil => rfl
  | cons t rest ih =>
    unfold runFrom at h ⊢
    split at h
    · cases h
    · next hm =>
      rw [if_neg hm]
      cases hn : a.next? q t with
      | none =>
        rw [hn] at h
        cases h
      | some r =>
        rw [hn] at h
        simp [ih h]

theorem readsTo_iff_walk :
    (a.run word).ReadsTo word q ↔ ∃ path, Walk a.Moves a.start word path q := by
  constructor
  · intro h
    obtain ⟨last, hw⟩ := walk_of_length h.length
    have hq : last = q := Option.some.inj (hw.getLast?_path.symm.trans h.last)
    exact ⟨_, hq ▸ hw⟩
  · intro h
    obtain ⟨path, hw⟩ := h
    rw [run, runFrom_eq_of_walk hw]
    refine ⟨hw.length_path, hw.getLast?_path, ?_⟩
    dsimp only
    split
    · exact .inl rfl
    · exact .inr rfl

theorem accepts_iff_walk :
    a.accepts word = true ↔
      ∃ path q, Walk a.Moves a.start word path q ∧ q ∈ a.accepting := by
  constructor
  · intro h
    have ho : (a.run word).outcome = .accepted := of_decide_eq_true h
    obtain ⟨last, hw⟩ := walk_of_length (length_of_accepted ho)
    rw [run, runFrom_eq_of_walk hw] at ho
    refine ⟨_, last, hw, ?_⟩
    apply Decidable.byContradiction
    intro hn
    rw [if_neg hn] at ho
    cases ho
  · intro h
    obtain ⟨path, q, hw, hq⟩ := h
    rw [accepts, run, runFrom_eq_of_walk hw, if_pos hq]
    rfl

/-- The automaton reads a word exactly where a walk from `start` spells it, and accepts it exactly
where such a walk ends elsewhere. A word has at most one walk, which is the path of its run. -/
structure Follows (a : Automaton) (edge : Char → Char → Char → Prop) (start : Char) : Prop where
  readsTo_iff : ∀ word q, (a.run word).ReadsTo word q ↔ ∃ path, Walk edge start word path q
  path_eq : ∀ word path q, Walk edge start word path q → (a.run word).path = path
  walk_unique : ∀ word path path' q q', Walk edge start word path q →
    Walk edge start word path' q' → path = path' ∧ q = q'
  accepts_iff : ∀ word, a.accepts word = true ↔ ∃ path q, Walk edge start word path q ∧ q ≠ start

theorem Follows.accepts_iff_of_walk (hf : a.Follows edge start)
    (hw : Walk edge start word path q) : a.accepts word = true ↔ q ≠ start := by
  rw [hf.accepts_iff]
  constructor
  · intro h
    obtain ⟨path', q', hw', hne⟩ := h
    obtain ⟨_, rfl⟩ := hf.walk_unique _ _ _ _ _ hw hw'
    exact hne
  · intro hne
    exact ⟨path, q, hw, hne⟩

theorem follows_moves (hacc : ∀ q ∈ a.states, q ∈ a.accepting ↔ q ≠ a.start) :
    a.Follows a.Moves a.start where
  readsTo_iff _ _ := readsTo_iff_walk
  path_eq word path q hw := congrArg Run.path (runFrom_eq_of_walk hw)
  walk_unique word path path' q q' hw hw' := by
    have hp : path = path' := by
      have hr : (a.run word).path = path := congrArg Run.path (runFrom_eq_of_walk hw)
      have hr' : (a.run word).path = path' := congrArg Run.path (runFrom_eq_of_walk hw')
      exact hr.symm.trans hr'
    subst hp
    exact ⟨rfl, Option.some.inj (hw.getLast?_path.symm.trans hw'.getLast?_path)⟩
  accepts_iff word := by
    rw [accepts_iff_walk]
    constructor
    · intro h
      obtain ⟨path, q, hw, hq⟩ := h
      exact ⟨path, q, hw, (hacc q (last_mem_states hw a.valid.start_mem)).mp hq⟩
    · intro h
      obtain ⟨path, q, hw, hq⟩ := h
      exact ⟨path, q, hw, (hacc q (last_mem_states hw a.valid.start_mem)).mpr hq⟩

theorem follows_of_ofGrammar {g : Grammar} {policy : OnConflict}
    (h : (ofGrammar g policy).value = .ok a) (he : ∀ x t y, a.next? x t = some y ↔ edge x t y) :
    a.Follows edge g.start := by
  have hm : a.Moves = edge := by
    funext x t y
    exact propext (he x t y)
  rw [← hm, ← start_eq h]
  apply follows_moves
  intro q hq
  rw [mem_accepting_iff h, start_eq h]
  constructor
  · exact And.right
  · intro hne
    rw [congrArg Parts.states (connect_of_ofGrammar h).2] at hq
    exact ⟨hq, hne⟩

/-- An automaton built without conflicts follows all edges of its grammar. Where the last target
wins there is always one, and it follows the last edge of each nonterminal on each symbol. -/
theorem ofGrammar_follows_edges (g : Grammar) :
    (∀ a, (ofGrammar g .reject).value = .ok a → a.Follows g.Edge g.start) ∧
      ∃ a, (ofGrammar g .replace).value = .ok a ∧ a.Follows g.LastEdge g.start := by
  constructor
  · intro a h
    exact follows_of_ofGrammar h fun _ _ _ => next?_eq_some_iff_edge h
  · obtain ⟨a, h⟩ := ofGrammar_replace_ok (g := g)
    exact ⟨a, h, follows_of_ofGrammar h fun _ _ _ => next?_eq_some_iff_lastEdge h⟩

theorem sample_follows_edges :
    ∃ a, (ofGrammar Grammar.sample .reject).value = .ok a ∧ a.Follows Grammar.sample.Edge 'S' := by
  have hok : (ofGrammar Grammar.sample .reject).value.isOk = true := by decide
  cases ha : (ofGrammar Grammar.sample .reject).value with
  | error e =>
    rw [ha] at hok
    cases hok
  | ok a => exact ⟨a, rfl, (ofGrammar_follows_edges Grammar.sample).1 a ha⟩

end Automaton

end CharGrammar
