import CharGrammar.Grammar.LanguageClass
import CharGrammar.Proofs.Conflicts

namespace CharGrammar

open Automaton (edge? connect ofGrammar)

/-- The classes tell the same shapes apart as the edges. -/
theorem Alternative.isSome_edge? {x : Char} {alternative : Alternative} :
    (edge? x alternative).isSome = alternative.isRightLinear := by
  unfold edge? Alternative.isRightLinear
  split
  · rfl
  · rfl
  · split <;> simp_all

theorem Alternative.isRightLinear_iff {x : Char} {alternative : Alternative} :
    alternative.isRightLinear = true ↔ ∃ t y, Alternative.Edge x alternative t y := by
  simp only [← isSome_edge? (x := x), Option.isSome_iff_exists, Prod.exists,
    Automaton.edge?_eq_some_iff]

theorem Alternative.Edge.head? {x t y : Char} {alternative : Alternative}
    (h : Alternative.Edge x alternative t y) : alternative.head? = some (.terminal t) := by
  cases h <;> rfl

/-- The production that an event tells as skipped. -/
def Event.skipped? : Event → Option (Char × Alternative)
  | .skipped head alternative => some (head, alternative)
  | _ => none

theorem Event.skipped?_eq_some_iff {e : Event} {x : Char} {alternative : Alternative} :
    e.skipped? = some (x, alternative) ↔ e = .skipped x alternative := by
  cases e <;> simp [skipped?]

/-- The productions that were skipped, in order. -/
def skips (events : List Event) : List (Char × Alternative) := events.filterMap Event.skipped?

theorem mem_skips_iff {events : List Event} {x : Char} {alternative : Alternative} :
    (x, alternative) ∈ skips events ↔ .skipped x alternative ∈ events := by
  simp [skips, List.mem_filterMap, Event.skipped?_eq_some_iff]

theorem skips_after {α : Type} {e : Event} {l : Logged α} :
    skips (l.after e).events = e.skipped?.toList ++ skips l.events := by
  cases he : e.skipped? <;> simp [skips, Logged.after, he]

theorem Grammar.Edge.exists_lastEdge {g : Grammar} {x t y : Char} (h : g.Edge x t y) :
    ∃ z, g.LastEdge x t z := by
  obtain ⟨body, hb, alternative, hm, he⟩ := h
  have hy : y ∈ ((g.alternatives? x).getD []).filterMap fun other =>
      Automaton.target? x t (x, other) := by
    rw [hb]
    exact List.mem_filterMap.mpr ⟨alternative, hm, Automaton.target?_eq_some_iff.mpr ⟨rfl, he⟩⟩
  have hlast := List.getLast?_eq_some_getLast (List.ne_nil_of_mem hy)
  exact ⟨_, Automaton.getLast?_targets_iff.mp hlast⟩

namespace Automaton

variable {policy : OnConflict} {transitions final : Transitions} {p : Char × Alternative}
  {rest productions : List (Char × Alternative)} {g : Grammar} {a : Automaton} {x t y : Char}

/-- A production without an edge is skipped, and no other one. -/
theorem skips_connect_cons (h : (connect policy transitions (p :: rest)).value = .ok final) :
    ∃ added, (connect policy added rest).value = .ok final ∧
      skips (connect policy transitions (p :: rest)).events =
        (if p.2.isRightLinear then [] else [p]) ++ skips (connect policy added rest).events := by
  obtain ⟨head, alternative⟩ := p
  rw [connect] at h ⊢
  rw [← Alternative.isSome_edge? (x := head)]
  cases he : edge? head alternative with
  | none =>
    rw [he] at h
    exact ⟨transitions, h, skips_after⟩
  | some e =>
    obtain ⟨symbol, target⟩ := e
    rw [he] at h
    dsimp only at h ⊢
    refine ⟨transitions.insert (head, symbol) target, ?_⟩
    cases hf : transitions.get? (head, symbol) with
    | none =>
      rw [hf] at h
      exact ⟨h, rfl⟩
    | some former =>
      rw [hf] at h
      dsimp only at h ⊢
      split at h
      · next hs =>
        rw [if_pos hs]
        exact ⟨h, rfl⟩
      · next hs =>
        rw [if_neg hs]
        cases policy with
        | reject => cases h
        | replace => exact ⟨h, skips_after⟩

theorem skips_connect (h : (connect policy transitions productions).value = .ok final) :
    skips (connect policy transitions productions).events =
      productions.filter fun p => !p.2.isRightLinear := by
  induction productions generalizing transitions with
  | nil => rfl
  | cons p rest ih =>
    obtain ⟨added, hr, hs⟩ := skips_connect_cons h
    rw [hs, ih hr, List.filter_cons]
    cases p.2.isRightLinear <;> simp

theorem events_ofGrammar (h : (ofGrammar g policy).value = .ok a) :
    (ofGrammar g policy).events =
      (connect policy ∅ g.productions).events ++ [.built a.states.size a.transitions.size] := by
  unfold ofGrammar at h ⊢
  dsimp only at h ⊢
  split at h
  · cases h
  · cases h
    rfl

/-- What is skipped on the way to an automaton are the productions of other shapes, in order. -/
theorem skips_ofGrammar (h : (ofGrammar g policy).value = .ok a) :
    skips (ofGrammar g policy).events = g.productions.filter fun p => !p.2.isRightLinear := by
  rw [events_ofGrammar h, skips, List.filterMap_append, ← skips,
    skips_connect (connect_of_ofGrammar h).1]
  exact List.append_nil _

/-- Under either policy each edge leaves a transition from its state on its symbol. -/
theorem exists_next?_of_edge (h : (ofGrammar g policy).value = .ok a) (he : g.Edge x t y) :
    ∃ z, a.next? x t = some z := by
  obtain ⟨z, hz⟩ := he.exists_lastEdge
  exact ⟨z, (next?_eq_some_iff_lastEdge h).mpr hz⟩

end Automaton

namespace Grammar

variable {g : Grammar}

theorem head_mem_of_production {p : Char × Alternative} (h : p ∈ g.productions) :
    p.1 ∈ g.nonterminals := by
  obtain ⟨body, hb, _⟩ := mem_productions_iff.mp h
  exact (validRule hb).head_mem

/-- The heads of a grammar are nonterminals, so the wider classes are never needed. -/
theorem languageClass_eq :
    g.languageClass = if g.productions.all (fun p => Alternative.isRightLinear p.2) then .regular
      else .contextFree := by
  have hheads : g.productions.all (fun p => p.1 ∈ g.nonterminals) = true :=
    List.all_eq_true.mpr fun p hp => decide_eq_true (head_mem_of_production hp)
  rw [languageClass, if_pos hheads]

theorem languageClass_eq_regular_iff :
    g.languageClass = .regular ↔ ∀ p ∈ g.productions, p.2.isRightLinear = true := by
  rw [languageClass_eq, ← List.all_eq_true]
  split
  · next h => exact ⟨fun _ => h, fun _ => rfl⟩
  · next h => exact ⟨nofun, fun ha => absurd ha h⟩

theorem regular_iff_edges :
    g.languageClass = .regular ↔
      ∀ x body, g.alternatives? x = some body → ∀ alternative ∈ body,
        ∃ t y, Alternative.Edge x alternative t y := by
  rw [languageClass_eq_regular_iff]
  refine ⟨?_, ?_⟩
  · intro h x body hb alternative hm
    exact Alternative.isRightLinear_iff.mp (h _ (mem_productions_iff.mpr ⟨body, hb, hm⟩))
  · intro h p hp
    obtain ⟨body, hb, hm⟩ := mem_productions_iff.mp hp
    exact Alternative.isRightLinear_iff.mpr (h p.1 body hb p.2 hm)

end Grammar

open Grammar

/-- Every grammar is regular or context-free, and it is regular exactly if its automaton skips none
of its alternatives, where the last target wins. Then all of them have edges, and each leaves a
transition on its first symbol, in any automaton of the grammar. -/
theorem regular_iff_none_skipped (g : Grammar) :
    (g.languageClass = .regular ∨ g.languageClass = .contextFree) ∧
    (g.languageClass = .regular ↔
      ∀ x alternative, .skipped x alternative ∉ (ofGrammar g .replace).events) ∧
    (g.languageClass = .regular ↔
      ∀ x body, g.alternatives? x = some body → ∀ alternative ∈ body,
        ∃ t y, Alternative.Edge x alternative t y) ∧
    (∃ a, (ofGrammar g .replace).value = .ok a) ∧
    (g.languageClass = .regular → ∀ policy a, (ofGrammar g policy).value = .ok a →
      ∀ x body, g.alternatives? x = some body → ∀ alternative ∈ body,
        ∃ t y, alternative.head? = some (.terminal t) ∧ a.next? x t = some y) := by
  obtain ⟨last, hlast⟩ := Automaton.ofGrammar_replace_ok (g := g)
  refine ⟨?_, ?_, regular_iff_edges, ⟨last, hlast⟩, ?_⟩
  · rw [languageClass_eq]
    split
    · exact .inl rfl
    · exact .inr rfl
  · simp only [← mem_skips_iff, Automaton.skips_ofGrammar hlast, languageClass_eq_regular_iff]
    simp [List.mem_filter]
  · intro hr policy a ha x body hb alternative hm
    obtain ⟨t, y, he⟩ := regular_iff_edges.mp hr x body hb alternative hm
    obtain ⟨z, hz⟩ := Automaton.exists_next?_of_edge ha ⟨body, hb, alternative, hm, he⟩
    exact ⟨t, z, he.head?, hz⟩

/-- The alternative `bS` of `A` loses its target to `bA`, and its transition stays. -/
theorem ambiguous_none_skipped :
    ambiguous.languageClass = .regular ∧
    (∀ x alternative, .skipped x alternative ∉ (ofGrammar ambiguous .replace).events) ∧
    ∃ a y, (ofGrammar ambiguous .replace).value = .ok a ∧ a.next? 'A' 'b' = some y := by
  obtain ⟨_, hskips, _, ⟨a, ha⟩, hnext⟩ := regular_iff_none_skipped ambiguous
  have hr : ambiguous.languageClass = .regular := by decide
  obtain ⟨t, y, ht, hy⟩ := hnext hr .replace a ha 'A' _ rfl [.terminal 'b', .nonterminal 'S']
    (by simp)
  cases ht
  exact ⟨hr, hskips.mp hr, a, y, ha, hy⟩

end CharGrammar
