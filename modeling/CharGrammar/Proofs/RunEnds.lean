import CharGrammar.Proofs.Walks

namespace CharGrammar

/-- The same outcome once so many more symbols were read before it. -/
def Outcome.later (n : Nat) : Outcome → Outcome
  | accepted => accepted
  | endedIn q => endedIn q
  | outsideAlphabet position t => outsideAlphabet (n + position) t
  | noTransition position q t => noTransition (n + position) q t

namespace Run

/-- How many symbols a run has read. -/
def steps (r : Run) : Nat := r.path.length - 1

/-- A run carried on by one that starts where it ended. The state that they share stands once, and
positions count from the beginning of the first. -/
def carriedOn (r s : Run) : Run := ⟨r.path ++ s.path.tail, s.outcome.later r.steps⟩

end Run

namespace Walk

variable {edge : Char → Char → Char → Prop} {q mid last : Char}
  {word path more further : List Char}

theorem getElem?_zero (h : Walk edge q word path last) : path[0]? = some q := by
  cases h <;> rfl

theorem getElem?_last (h : Walk edge q word path last) : path[word.length]? = some last := by
  rw [← h.getLast?_path, List.getLast?_eq_getElem?, h.length_path]
  rfl

theorem getElem?_move {i : Nat} (h : Walk edge q word path last) (hi : i < word.length) :
    ∃ x t y, path[i]? = some x ∧ word[i]? = some t ∧ edge x t y ∧ path[i + 1]? = some y := by
  induction h generalizing i with
  | stay q => cases hi
  | @move q t r last word path step rest ih =>
    cases i with
    | zero => exact ⟨q, t, r, rfl, rfl, step, rest.getElem?_zero⟩
    | succ i => exact ih (Nat.lt_of_succ_lt_succ hi)

theorem append (h : Walk edge q word path mid) (h' : Walk edge mid more further last) :
    Walk edge q (word ++ more) (path ++ further.tail) last := by
  induction h with
  | stay q =>
    cases h' with
    | stay => exact .stay _
    | move step rest => exact .move step rest
  | move step _ ih => exact .move step (ih h')

end Walk

namespace Automaton

/-- Why a run ends in a state before what is left of its word, with so many symbols read. -/
inductive Stops (a : Automaton) (q : Char) (position : Nat) : List Char → Outcome → Prop
  | accepted (mem : q ∈ a.accepting) : Stops a q position [] .accepted
  | endedIn (not_mem : q ∉ a.accepting) : Stops a q position [] (.endedIn q)
  | outsideAlphabet {t : Char} {rest : List Char} (not_mem : t ∉ a.alphabet) :
      Stops a q position (t :: rest) (.outsideAlphabet position t)
  | noTransition {t : Char} {rest : List Char} (mem : t ∈ a.alphabet) (none : a.next? q t = none) :
      Stops a q position (t :: rest) (.noTransition position q t)

/-- What a run says of its word: each move of the path is a transition on the symbol that stands at
its place, and the outcome tells why the path has no more of them. -/
structure Traces (a : Automaton) (word : List Char) (r : Run) : Prop where
  length_path : r.path.length = r.steps + 1
  steps_le : r.steps ≤ word.length
  first : r.path[0]? = some a.start
  moves : ∀ i < r.steps, ∃ q t y, r.path[i]? = some q ∧ word[i]? = some t ∧
    a.next? q t = some y ∧ r.path[i + 1]? = some y
  accepted_iff : r.outcome = .accepted ↔
    r.steps = word.length ∧ ∃ q ∈ a.accepting, r.path[r.steps]? = some q
  endedIn_iff : ∀ q, r.outcome = .endedIn q ↔
    r.steps = word.length ∧ r.path[r.steps]? = some q ∧ q ∉ a.accepting
  outsideAlphabet_iff : ∀ n t, r.outcome = .outsideAlphabet n t ↔
    n = r.steps ∧ r.steps < word.length ∧ word[r.steps]? = some t ∧ t ∉ a.alphabet
  noTransition_iff : ∀ n q t, r.outcome = .noTransition n q t ↔
    n = r.steps ∧ r.steps < word.length ∧ r.path[r.steps]? = some q ∧ word[r.steps]? = some t ∧
      t ∈ a.alphabet ∧ a.next? q t = none

/-- The automaton that starts elsewhere. -/
def startingAt (a : Automaton) (q : Char) (h : q ∈ a.states) : Automaton where
  toParts := ⟨a.states, a.alphabet, a.transitions, q, a.accepting⟩
  valid := ⟨h, a.valid.accepting_subset, fun e he =>
    have hv := a.valid.transitions_valid e he
    ⟨hv.symbol_mem, hv.source_mem, hv.target_mem⟩⟩

variable {a : Automaton} {q last : Char} {position n : Nat} {word path rest more : List Char}
  {outcome : Outcome}

namespace Stops

/-- What stands behind the symbol that stopped a run makes no difference. -/
theorem append (h : a.Stops q position rest outcome) (hne : rest ≠ []) :
    a.Stops q position (rest ++ more) outcome := by
  cases h with
  | accepted => exact absurd rfl hne
  | endedIn => exact absurd rfl hne
  | outsideAlphabet not_mem => exact .outsideAlphabet not_mem
  | noTransition mem none => exact .noTransition mem none

theorem later (h : a.Stops q position rest outcome) :
    a.Stops q (n + position) rest (outcome.later n) := by
  cases h with
  | accepted mem => exact .accepted mem
  | endedIn not_mem => exact .endedIn not_mem
  | outsideAlphabet not_mem => exact .outsideAlphabet not_mem
  | noTransition mem none => exact .noTransition mem none

theorem accepted_iff (h : a.Stops q position rest outcome) :
    outcome = .accepted ↔ rest = [] ∧ q ∈ a.accepting := by
  cases h <;> simp [*]

theorem endedIn_iff {r : Char} (h : a.Stops q position rest outcome) :
    outcome = .endedIn r ↔ rest = [] ∧ q = r ∧ r ∉ a.accepting := by
  cases h <;> grind

theorem outsideAlphabet_iff {t : Char} (h : a.Stops q position rest outcome) :
    outcome = .outsideAlphabet n t ↔ n = position ∧ rest.head? = some t ∧ t ∉ a.alphabet := by
  cases h <;> grind

theorem noTransition_iff {r t : Char} (h : a.Stops q position rest outcome) :
    outcome = .noTransition n r t ↔
      n = position ∧ q = r ∧ rest.head? = some t ∧ t ∈ a.alphabet ∧ a.next? r t = none := by
  cases h <;> grind

end Stops

/-- A run walks along the transitions until something stops it. -/
theorem exists_walk (a : Automaton) (q : Char) (position : Nat) (word : List Char) :
    ∃ read rest last, word = read ++ rest ∧
      Walk a.Moves q read (a.runFrom q position word).path last ∧
      a.Stops last (position + read.length) rest (a.runFrom q position word).outcome := by
  induction word generalizing q position with
  | nil =>
    refine ⟨[], [], q, rfl, .stay q, ?_⟩
    unfold runFrom
    split
    · next h => exact .accepted h
    · next h => exact .endedIn h
  | cons t word ih =>
    unfold runFrom
    split
    · next hm => exact ⟨[], t :: word, q, rfl, .stay q, .outsideAlphabet hm⟩
    · next hm =>
      cases hn : a.next? q t with
      | none =>
        exact ⟨[], t :: word, q, rfl, .stay q, .noTransition (Decidable.not_not.mp hm) hn⟩
      | some r =>
        obtain ⟨read, rest, last, hw, hwalk, hs⟩ := ih r (position + 1)
        refine ⟨t :: read, rest, last, by simp [hw], .move hn hwalk, ?_⟩
        rw [List.length_cons, Nat.add_comm read.length, ← Nat.add_assoc]
        exact hs

/-- A walk up to where something stops it is the run. -/
theorem runFrom_eq_of_stops {read : List Char} (hw : Walk a.Moves q read path last)
    (hs : a.Stops last (position + read.length) rest outcome) :
    a.runFrom q position (read ++ rest) = ⟨path, outcome⟩ := by
  induction hw generalizing position with
  | stay q =>
    cases hs with
    | accepted mem => simp [runFrom, mem]
    | endedIn not_mem => simp [runFrom, not_mem]
    | outsideAlphabet not_mem => simp [runFrom, not_mem]
    | noTransition mem none => simp [runFrom, mem, none]
  | @move q t r last read path step _ ih =>
    have hm := step.symbol_mem
    -- The first symbol is in the alphabet, since a transition is on it.
    have hr : a.runFrom r (position + 1) (read ++ rest) = ⟨path, outcome⟩ := by
      apply ih
      rw [Nat.add_assoc, Nat.add_comm 1]
      exact hs
    unfold Moves at step
    rw [List.cons_append, runFrom, if_neg (not_not_intro hm), step]
    simp [hr]

theorem runFrom_startingAt {h : q ∈ a.states} {r : Char} :
    (a.startingAt q h).runFrom r position word = a.runFrom r position word := by
  induction word generalizing r position with
  | nil => rfl
  | cons t rest ih =>
    simp only [runFrom, ih]
    rfl

theorem run_startingAt {h : q ∈ a.states} : (a.startingAt q h).run word = a.runFrom q 0 word :=
  runFrom_startingAt

theorem run_stops (a : Automaton) (word : List Char) :
    ∃ read rest last, word = read ++ rest ∧ Walk a.Moves a.start read (a.run word).path last ∧
      a.Stops last read.length rest (a.run word).outcome := by
  obtain ⟨read, rest, last, hword, hw, hs⟩ := a.exists_walk a.start 0 word
  rw [Nat.zero_add] at hs
  exact ⟨read, rest, last, hword, hw, hs⟩

theorem run_eq_of_stops {read : List Char} (hw : Walk a.Moves a.start read path last)
    (hs : a.Stops last read.length rest outcome) : a.run (read ++ rest) = ⟨path, outcome⟩ :=
  runFrom_eq_of_stops hw (by rwa [Nat.zero_add])

theorem steps_of_walk {r : Run} {read : List Char} (hw : Walk a.Moves q read r.path last) :
    r.steps = read.length := by
  simp [Run.steps, hw.length_path]

/-- The path and the outcome of a run agree. -/
theorem traces_of_stops {r : Run} {read : List Char} (hw : Walk a.Moves a.start read r.path last)
    (hs : a.Stops last read.length rest r.outcome) : a.Traces (read ++ rest) r := by
  have hsteps := steps_of_walk hw
  have hlast : r.path[r.steps]? = some last := hsteps ▸ hw.getElem?_last
  have hnext : (read ++ rest)[r.steps]? = rest.head? := by
    rw [hsteps, List.getElem?_append_right (Nat.le_refl _), Nat.sub_self, List.head?_eq_getElem?]
  have hall : r.steps = (read ++ rest).length ↔ rest = [] := by simp [hsteps]
  have hpart : ∀ t, rest.head? = some t → r.steps < (read ++ rest).length := by
    intro t ht
    rw [hsteps, List.length_append]
    cases rest with
    | nil => cases ht
    | cons => simp
  refine ⟨by rw [hsteps, hw.length_path], by simp [hsteps], hw.getElem?_zero, ?_, ?_, ?_, ?_, ?_⟩
  · intro i hi
    rw [hsteps] at hi
    obtain ⟨q, t, y, hq, ht, hm, hy⟩ := hw.getElem?_move hi
    exact ⟨q, t, y, hq, (List.getElem?_append_left hi).trans ht, hm, hy⟩
  · rw [hs.accepted_iff, hall, hlast]
    simp
  · intro q
    rw [hs.endedIn_iff, hall, hlast, Option.some_inj]
  · intro n t
    rw [hs.outsideAlphabet_iff, hnext, ← hsteps]
    grind
  · intro n q t
    rw [hs.noTransition_iff, hnext, hlast, ← hsteps]
    grind

theorem run_append_of_stopped (h : (a.run word).steps < word.length) :
    a.run (word ++ more) = a.run word := by
  obtain ⟨read, rest, last, hword, hw, hs⟩ := a.run_stops word
  have hne : rest ≠ [] := by
    intro hn
    rw [steps_of_walk hw, hword, hn, List.append_nil] at h
    exact Nat.lt_irrefl _ h
  have happ : a.run (read ++ (rest ++ more)) = a.run word := run_eq_of_stops hw (hs.append hne)
  rw [← List.append_assoc, ← hword] at happ
  exact happ

/-- A run that read all of its word is carried on from the state in which it ended. -/
theorem run_append_of_read (h : (a.run word).steps = word.length) :
    ∃ q, ∃ hq : q ∈ a.states, (a.run word).path[(a.run word).steps]? = some q ∧
      a.run (word ++ more) = (a.run word).carriedOn ((a.startingAt q hq).run more) := by
  obtain ⟨read, rest, q, hword, hw, _⟩ := a.run_stops word
  have hn : rest = [] := by
    have hlen := congrArg List.length hword
    rw [List.length_append, ← h, steps_of_walk hw] at hlen
    exact List.length_eq_zero_iff.mp (by omega)
  rw [hn, List.append_nil] at hword
  subst hword
  refine ⟨q, last_mem_states hw a.valid.start_mem, h ▸ hw.getElem?_last, ?_⟩
  -- The second run walks on from the end of the first and is stopped at the same place.
  obtain ⟨read', rest', last, hmore, hw', hs'⟩ := a.exists_walk q 0 more
  have hs := hs'.later (n := word.length)
  rw [Nat.zero_add, ← List.length_append] at hs
  have happ := run_eq_of_stops (hw.append hw') hs
  rw [List.append_assoc, ← hmore] at happ
  rw [happ, run_startingAt, Run.carriedOn, h]

/-- The path, the position and the reason of a run agree, for every automaton and every word. A run
that was stopped is the run on every longer word, and a run that read all of its word is carried on
by the run of what follows, from the state in which it ended. -/
theorem run_traced (a : Automaton) (word : List Char) :
    a.Traces word (a.run word) ∧ ∀ more,
      ((a.run word).steps < word.length → a.run (word ++ more) = a.run word) ∧
      ((a.run word).steps = word.length →
        ∃ q, ∃ hq : q ∈ a.states, (a.run word).path[(a.run word).steps]? = some q ∧
          a.run (word ++ more) = (a.run word).carriedOn ((a.startingAt q hq).run more)) := by
  refine ⟨?_, fun more => ⟨run_append_of_stopped, run_append_of_read⟩⟩
  obtain ⟨read, rest, last, hword, hw, hs⟩ := a.run_stops word
  have ht := traces_of_stops hw hs
  rw [← hword] at ht
  exact ht

/-- The automaton that goes from `S` on `a` to `A` and back on `b`. -/
def alternating : Automaton where
  states := .ofList ['S', 'A']
  alphabet := .ofList ['a', 'b']
  transitions := .ofList [(('S', 'a'), 'A'), (('A', 'b'), 'S')]
  start := 'S'
  accepting := .ofList ['A']
  valid := Parts.fault?_eq_none_iff.mp (by decide)

/-- The second `a` stops the first run, and the second run is stopped by what it is carried on
with. -/
theorem alternating_runs :
    alternating.run ['a', 'a', 'b'] = ⟨['S', 'A'], .noTransition 1 'A' 'a'⟩ ∧
    ∃ q, ∃ hq : q ∈ alternating.states, (alternating.run ['a', 'b']).path[2]? = some q ∧
      alternating.run ['a', 'b', 'a', 'c'] =
        (alternating.run ['a', 'b']).carriedOn ((alternating.startingAt q hq).run ['a', 'c']) := by
  constructor
  · exact ((alternating.run_traced ['a', 'a']).2 ['b']).1 (by decide)
  · exact ((alternating.run_traced ['a', 'b']).2 ['a', 'c']).2 (by decide)

end Automaton

end CharGrammar
