import Mathlib.Data.List.Induction
import CharGrammar.Proofs.Edges

namespace CharGrammar

open Key (Before)

/-- Alternatives of `x` with edges on one symbol lead to one nonterminal. -/
def Body.Agrees (x : Char) (body : Body) : Prop :=
  ∀ one ∈ body, ∀ other ∈ body, ∀ t y z,
    Alternative.Edge x one t y → Alternative.Edge x other t z → y = z

namespace Grammar

/-- On some symbol `x` leads to two different nonterminals. -/
def Conflicted (g : Grammar) (x : Char) : Prop :=
  ∃ t y z, g.Edge x t y ∧ g.Edge x t z ∧ y ≠ z

/-- No nonterminal before `x` is conflicted, and on `t` the alternatives of `x` led to `former`
until the first one that disagrees with those before it leads to `y`. -/
structure FirstConflict (g : Grammar) (x t former y : Char) : Prop where
  least : ∀ z, g.Conflicted z → x ≤ z
  first : ∃ earlier alternative later,
    g.alternatives? x = some (earlier ++ alternative :: later) ∧ Body.Agrees x earlier ∧
      Alternative.Edge x alternative t y ∧ former ≠ y ∧
      (∃ other ∈ earlier, Alternative.Edge x other t former) ∧
      ∀ other ∈ earlier, ∀ z, Alternative.Edge x other t z → z = former

/-- Grammars that differ only in how often and in what order they give the alternatives of a
nonterminal. -/
structure Reorders (g g' : Grammar) : Prop where
  nonterminals_eq : g.nonterminals = g'.nonterminals
  terminals_eq : g.terminals = g'.terminals
  start_eq : g.start = g'.start
  mem_iff : ∀ x alternative, (x, alternative) ∈ g.productions ↔ (x, alternative) ∈ g'.productions

variable {g g' : Grammar} {x t y : Char}

theorem Reorders.symm (h : g.Reorders g') : g'.Reorders g :=
  ⟨h.nonterminals_eq.symm, h.terminals_eq.symm, h.start_eq.symm, fun x a => (h.mem_iff x a).symm⟩

theorem edge_iff_production :
    g.Edge x t y ↔ ∃ alternative, (x, alternative) ∈ g.productions ∧
      Alternative.Edge x alternative t y := by
  constructor
  · intro h
    obtain ⟨body, hb, alternative, hm, he⟩ := h
    exact ⟨alternative, mem_productions_iff.mpr ⟨body, hb, hm⟩, he⟩
  · intro h
    obtain ⟨alternative, hm, he⟩ := h
    obtain ⟨body, hb, hm⟩ := mem_productions_iff.mp hm
    exact ⟨body, hb, alternative, hm, he⟩

theorem Reorders.edge_iff (h : g.Reorders g') : g.Edge x t y ↔ g'.Edge x t y := by
  simp only [edge_iff_production, h.mem_iff]

/-- Productions are listed by ascending heads. -/
theorem productions_pairwise : g.productions.Pairwise fun p q => ¬ Before q.1 p.1 := by
  rw [productions, List.pairwise_flatMap]
  constructor
  · intro e _
    rw [List.pairwise_map]
    exact List.pairwise_of_forall fun _ _ => Nat.lt_irrefl _
  · refine g.rules.entries_pairwise.imp ?_
    intro d e hde p hp q hq
    obtain ⟨_, _, rfl⟩ := List.mem_map.mp hp
    obtain ⟨_, _, rfl⟩ := List.mem_map.mp hq
    exact Nat.not_lt.mpr (Nat.le_of_lt hde)

/-- The alternative of a production of `x`. -/
def alternativeOf? (x : Char) (p : Char × Alternative) : Option Alternative :=
  if p.1 = x then some p.2 else none

theorem alternativeOf?_eq_some_iff {p : Char × Alternative} {alternative : Alternative} :
    alternativeOf? x p = some alternative ↔ p = (x, alternative) := by
  obtain ⟨head, other⟩ := p
  simp [alternativeOf?]

theorem mem_alternativesOf_iff {productions : List (Char × Alternative)}
    {alternative : Alternative} :
    alternative ∈ productions.filterMap (alternativeOf? x) ↔ (x, alternative) ∈ productions := by
  rw [List.mem_filterMap]
  simp only [alternativeOf?_eq_some_iff, exists_eq_right]

/-- Around a production of `x` stand the other alternatives of `x`, in order. -/
theorem alternatives?_of_split {front back : List (Char × Alternative)} {alternative : Alternative}
    (h : g.productions = front ++ (x, alternative) :: back) :
    g.alternatives? x = some (front.filterMap (alternativeOf? x) ++
      alternative :: back.filterMap (alternativeOf? x)) := by
  have hm : (x, alternative) ∈ g.productions := by simp [h]
  obtain ⟨body, hb, _⟩ := mem_productions_iff.mp hm
  have hf : g.productions.filterMap (alternativeOf? x) = body := by
    have hne : ∀ p : Char × Alternative, p.1 ≠ x → alternativeOf? x p = none :=
      fun p hp => if_neg hp
    rw [filterMap_productions hne, hb]
    simp [alternativeOf?]
  rw [hb, ← hf, h, List.filterMap_append, List.filterMap_cons]
  simp [alternativeOf?]

end Grammar

namespace Automaton

/-- Productions that lead anywhere from one state on one symbol lead to one target. -/
def Agree (productions : List (Char × Alternative)) : Prop :=
  ∀ p ∈ productions, ∀ q ∈ productions, ∀ x t y z,
    target? x t p = some y → target? x t q = some z → y = z

section Connect

variable {transitions final : Transitions} {p : Char × Alternative}
  {front back productions : List (Char × Alternative)} {x t y : Char} {e : AutomatonError}

theorem connect_reject_append :
    (connect .reject transitions (front ++ back)).value =
      (connect .reject transitions front).value.bind fun added =>
        (connect .reject added back).value := by
  induction front generalizing transitions with
  | nil => rfl
  | cons p rest ih =>
    rw [List.cons_append, connect_reject_cons, connect_reject_cons]
    cases clash? transitions p with
    | none => exact ih
    | some e => rfl

/-- A target in the table was put there by a production. -/
theorem exists_target_of_get? (h : (productions.foldl addEdge ∅).get? (x, t) = some y) :
    ∃ p ∈ productions, target? x t p = some y := by
  rw [get?_foldl_addEdge, Table.get?_empty, Option.or_none] at h
  exact List.mem_filterMap.mp (List.mem_of_getLast? h)

theorem clash?_eq_some_iff :
    clash? transitions p = some e ↔ ∃ t y former, Alternative.Edge p.1 p.2 t y ∧
      transitions.get? (p.1, t) = some former ∧ former ≠ y ∧ e = .conflict p.1 t former y := by
  simp only [clash?, Option.bind_eq_some_iff, ← edge?_eq_some_iff, Prod.exists]
  constructor
  · intro h
    obtain ⟨t, y, he, former, hf, hc⟩ := h
    split at hc
    · cases hc
    · next hne =>
      cases hc
      exact ⟨t, y, former, he, hf, hne, rfl⟩
  · intro h
    obtain ⟨t, y, former, he, hf, hne, rfl⟩ := h
    exact ⟨t, y, he, former, hf, if_neg hne⟩

/-- Where no conflict was met, all targets agree, since the table holds each of them. -/
theorem agree_of_connect (h : (connect .reject ∅ productions).value = .ok final) :
    Agree productions := by
  intro p hp q hq x t y z hy hz
  have hfinal := connect_reject_holds h hp hy
  rw [connect_reject_holds h hq hz] at hfinal
  exact (Option.some.inj hfinal).symm

theorem connect_of_agree (h : Agree productions) :
    (connect .reject ∅ productions).value = .ok (productions.foldl addEdge ∅) := by
  induction productions using List.reverseRecOn with
  | nil => rfl
  | append_singleton front p ih =>
    have hfront : Agree front := fun q hq r hr =>
      h q (List.mem_append_left _ hq) r (List.mem_append_left _ hr)
    have hclash : clash? (front.foldl addEdge ∅) p = none := by
      rw [clash?_eq_none_iff]
      intro x t y former hy hf
      obtain ⟨q, hq, hz⟩ := exists_target_of_get? hf
      exact h q (List.mem_append_left _ hq) p (by simp) x t former y hz hy
    rw [connect_reject_append, ih hfront, List.foldl_append]
    change (connect .reject (front.foldl addEdge ∅) [p]).value = _
    rw [connect_reject_cons, hclash]
    rfl

/-- A conflict is met at the first production that clashes with those before it. -/
theorem split_of_connect_error (h : (connect .reject ∅ productions).value = .error e) :
    ∃ front p back, productions = front ++ p :: back ∧ Agree front ∧
      clash? (front.foldl addEdge ∅) p = some e := by
  induction productions using List.reverseRecOn with
  | nil => cases h
  | append_singleton front p ih =>
    rw [connect_reject_append] at h
    cases hf : (connect .reject ∅ front).value with
    | error e' =>
      rw [hf] at h
      cases h
      obtain ⟨earlier, q, later, rfl, ha, hc⟩ := ih hf
      exact ⟨earlier, q, later ++ [p], by simp, ha, hc⟩
    | ok added =>
      rw [hf] at h
      change (connect .reject added [p]).value = _ at h
      rw [connect_reject_cons, connect_eq hf] at h
      cases hc : clash? (front.foldl addEdge ∅) p with
      | none =>
        rw [hc] at h
        cases h
      | some e' =>
        rw [hc] at h
        cases h
        exact ⟨front, p, [], rfl, agree_of_connect hf, hc⟩

end Connect

section Conflicts

variable {g g' : Grammar} {a : Automaton} {policy : OnConflict} {e : AutomatonError}
  {productions : List (Char × Alternative)} {x : Char}

/-- Among productions that agree, no nonterminal has two targets on a symbol. -/
theorem eq_of_agree {t y z : Char} {one other : Alternative} (h : Agree productions)
    (h₁ : (x, one) ∈ productions) (h₂ : (x, other) ∈ productions)
    (hy : Alternative.Edge x one t y) (hz : Alternative.Edge x other t z) : y = z :=
  h _ h₁ _ h₂ x t y z (target?_eq_some_iff.mpr ⟨rfl, hy⟩) (target?_eq_some_iff.mpr ⟨rfl, hz⟩)

theorem agrees_of_agree (h : Agree productions) :
    Body.Agrees x (productions.filterMap (Grammar.alternativeOf? x)) := by
  intro one h₁ other h₂ t y z hy hz
  exact eq_of_agree h (Grammar.mem_alternativesOf_iff.mp h₁) (Grammar.mem_alternativesOf_iff.mp h₂)
    hy hz

theorem agree_productions_iff : Agree g.productions ↔ ∀ x, ¬ g.Conflicted x := by
  constructor
  · intro h x hx
    obtain ⟨t, y, z, hy, hz, hne⟩ := hx
    obtain ⟨one, h₁, hy⟩ := Grammar.edge_iff_production.mp hy
    obtain ⟨other, h₂, hz⟩ := Grammar.edge_iff_production.mp hz
    exact hne (eq_of_agree h h₁ h₂ hy hz)
  · intro h p hp q hq x t y z hy hz
    obtain ⟨rfl, hy⟩ := target?_eq_some_iff.mp hy
    obtain ⟨hx, hz⟩ := target?_eq_some_iff.mp hz
    apply Decidable.byContradiction
    intro hne
    refine h p.1 ⟨t, y, z, ?_, ?_, hne⟩
    · exact Grammar.edge_iff_production.mpr ⟨p.2, hp, hy⟩
    · exact Grammar.edge_iff_production.mpr ⟨q.2, hx ▸ hq, hz⟩

/-- The first production that clashes belongs to the least conflicted nonterminal. -/
theorem firstConflict_of_connect (h : (connect .reject ∅ g.productions).value = .error e) :
    ∃ x t former y, g.FirstConflict x t former y ∧ e = .conflict x t former y := by
  obtain ⟨front, ⟨x, alternative⟩, back, hs, ha, hc⟩ := split_of_connect_error h
  obtain ⟨t, y, former, hy, hf, hne, rfl⟩ := clash?_eq_some_iff.mp hc
  obtain ⟨⟨head, other⟩, hother, htarget⟩ := exists_target_of_get? hf
  obtain ⟨rfl, hformer⟩ := target?_eq_some_iff.mp htarget
  refine ⟨head, t, former, y, ⟨?_, ?_⟩, rfl⟩
  · intro z hz
    apply UInt32.le_iff_toNat_le.mpr
    apply Nat.le_of_not_lt
    intro hlt
    -- All productions of a lesser head stand before the clash, and those agree.
    have hbefore : ∀ one, (z, one) ∈ g.productions → (z, one) ∈ front := by
      intro one hm
      have hp := Grammar.productions_pairwise (g := g)
      rw [hs] at hm hp
      rcases List.mem_append.mp hm with hm | hm
      · exact hm
      · rcases List.mem_cons.mp hm with he | hm
        · cases he
          exact absurd hlt (Nat.lt_irrefl _)
        · exact absurd hlt ((List.pairwise_cons.mp (List.pairwise_append.mp hp).2.1).1 _ hm)
    obtain ⟨s, v, w, hv, hw, hvw⟩ := hz
    obtain ⟨one, h₁, hv⟩ := Grammar.edge_iff_production.mp hv
    obtain ⟨two, h₂, hw⟩ := Grammar.edge_iff_production.mp hw
    exact hvw (eq_of_agree ha (hbefore one h₁) (hbefore two h₂) hv hw)
  · refine ⟨_, alternative, _, Grammar.alternatives?_of_split hs, agrees_of_agree ha, hy, hne,
      ⟨other, Grammar.mem_alternativesOf_iff.mpr hother, hformer⟩, ?_⟩
    intro one h₁ z hz
    exact eq_of_agree ha (Grammar.mem_alternativesOf_iff.mp h₁) hother hz hformer

theorem ofGrammar_eq_error_iff :
    (ofGrammar g policy).value = .error e ↔ (connect policy ∅ g.productions).value = .error e := by
  cases hc : (connect policy ∅ g.productions).value with
  | error e' =>
    rw [value_ofGrammar, hc, Except.bind, Except.error.injEq, Except.error.injEq]
  | ok transitions =>
    obtain ⟨a, ha, _⟩ := ofGrammar_of_connect hc
    rw [ha]
    exact ⟨nofun, nofun⟩

/-- Without conflicts it makes no difference whether they would be rejected. -/
theorem ofGrammar_replace_of_reject (h : (ofGrammar g .reject).value = .ok a) :
    (ofGrammar g .replace).value = .ok a := by
  obtain ⟨hc, hp⟩ := connect_of_ofGrammar h
  rw [value_ofGrammar, connect_replace_eq, ← connect_eq hc]
  exact Proposal.check_eq_ok_iff.mpr hp

theorem ofGrammar_reject_ok_iff :
    (∃ a, (ofGrammar g .reject).value = .ok a) ↔ ∀ x, ¬ g.Conflicted x := by
  rw [← agree_productions_iff]
  constructor
  · intro h
    obtain ⟨a, ha⟩ := h
    exact agree_of_connect (connect_of_ofGrammar ha).1
  · intro h
    obtain ⟨a, ha, _⟩ := ofGrammar_of_connect (connect_of_agree h)
    exact ⟨a, ha⟩

theorem ofGrammar_reject_error_iff :
    (∃ e, (ofGrammar g .reject).value = .error e) ↔ ∃ x, g.Conflicted x := by
  rw [← not_iff_not, not_exists, not_exists, ← ofGrammar_reject_ok_iff]
  cases (ofGrammar g .reject).value <;> simp

/-- Without conflicts the order of the alternatives is of no account. -/
theorem ofGrammar_of_reorders (hr : g.Reorders g') (h : (ofGrammar g .reject).value = .ok a) :
    (ofGrammar g' .reject).value = .ok a := by
  have hagree : ∀ x, ¬ g'.Conflicted x := by
    intro x hx
    obtain ⟨t, y, z, hy, hz, hne⟩ := hx
    exact ofGrammar_reject_ok_iff.mp ⟨a, h⟩ x
      ⟨t, y, z, hr.edge_iff.mpr hy, hr.edge_iff.mpr hz, hne⟩
  obtain ⟨a', h'⟩ := ofGrammar_reject_ok_iff.mpr hagree
  have ht : a.transitions = a'.transitions := by
    apply Table.ext_get?
    intro k
    obtain ⟨x, t⟩ := k
    apply Option.ext
    intro y
    have hnext : a.next? x t = some y ↔ a'.next? x t = some y := by
      rw [next?_eq_some_iff_edge h, next?_eq_some_iff_edge h', hr.edge_iff]
    exact hnext
  have hp : a.toParts = a'.toParts := by
    rw [(connect_of_ofGrammar h).2, (connect_of_ofGrammar h').2, Parts.over, Parts.over, ht,
      hr.nonterminals_eq, hr.terminals_eq, hr.start_eq]
  rw [h', Proposal.eq_of_parts_eq hp]

/-- The automaton of a grammar can fail only by a conflict between the edges of a nonterminal. Where
the last target wins it never fails, and where conflicts are rejected it fails by the first of them,
if there is any. An automaton without conflicts is the same under both policies, and for all orders
of the alternatives. -/
theorem ofGrammar_conflicts (g : Grammar) :
    (∀ policy e, (ofGrammar g policy).value = .error e →
      ∃ x t former y, e = .conflict x t former y) ∧
    (∃ a, (ofGrammar g .replace).value = .ok a ∧
      ∀ x t y, a.next? x t = some y ↔ g.LastEdge x t y) ∧
    ((∃ e, (ofGrammar g .reject).value = .error e) ↔ ∃ x, g.Conflicted x) ∧
    (∀ e, (ofGrammar g .reject).value = .error e →
      ∃ x t former y, g.FirstConflict x t former y ∧ e = .conflict x t former y) ∧
    (∀ a, (ofGrammar g .reject).value = .ok a → (ofGrammar g .replace).value = .ok a) ∧
    ∀ g', g.Reorders g' → ∀ a,
      (ofGrammar g .reject).value = .ok a ↔ (ofGrammar g' .reject).value = .ok a := by
  obtain ⟨a, ha⟩ := ofGrammar_replace_ok (g := g)
  have hfirst : ∀ e, (ofGrammar g .reject).value = .error e →
      ∃ x t former y, g.FirstConflict x t former y ∧ e = .conflict x t former y :=
    fun e he => firstConflict_of_connect (ofGrammar_eq_error_iff.mp he)
  refine ⟨?_, ⟨a, ha, fun _ _ _ => next?_eq_some_iff_lastEdge ha⟩, ofGrammar_reject_error_iff,
    hfirst, fun _ => ofGrammar_replace_of_reject, ?_⟩
  · intro policy e he
    cases policy with
    | reject =>
      obtain ⟨x, t, former, y, _, rfl⟩ := hfirst e he
      exact ⟨x, t, former, y, rfl⟩
    | replace =>
      rw [ha] at he
      cases he
  · intro g' hr a
    exact ⟨ofGrammar_of_reorders hr, ofGrammar_of_reorders hr.symm⟩

end Conflicts

end Automaton

namespace Grammar

/-- The rules `S = bS | bA` and `A = a | aA | bS | bA`. The alternatives of `A` on `a` agree. -/
def ambiguous : Grammar where
  nonterminals := .ofList ['S', 'A']
  terminals := .ofList ['a', 'b']
  rules := .ofList [
    ('S', [[.terminal 'b', .nonterminal 'S'], [.terminal 'b', .nonterminal 'A']]),
    ('A', [[.terminal 'a'], [.terminal 'a', .nonterminal 'A'], [.terminal 'b', .nonterminal 'S'],
      [.terminal 'b', .nonterminal 'A']])]
  start := 'S'
  valid := Parts.fault?_eq_none_iff.mp (by decide)

/-- The sample with the alternatives of `A` turned around and one of them repeated. -/
def sampleTurned : Grammar :=
  let rules := sample.rules.insert 'A'
    [[.terminal 'b'], [.terminal 'a', .nonterminal 'B'], [.terminal 'b']]
  { sample with rules, valid := Parts.fault?_eq_none_iff.mp (by decide) }

theorem sample_reorders : sample.Reorders sampleTurned := by
  refine ⟨rfl, rfl, rfl, ?_⟩
  have hsub : ∀ p ∈ sample.productions, p ∈ sampleTurned.productions := by decide
  have hsup : ∀ p ∈ sampleTurned.productions, p ∈ sample.productions := by decide
  exact fun x alternative => ⟨hsub (x, alternative), hsup (x, alternative)⟩

end Grammar

theorem Automaton.ambiguous_conflict :
    (∃ x t former y, Grammar.ambiguous.FirstConflict x t former y ∧
      AutomatonError.conflict 'A' 'b' 'S' 'A' = .conflict x t former y) ∧
    ∃ a, (ofGrammar .sample .reject).value = .ok a ∧ (ofGrammar .sample .replace).value = .ok a ∧
      (ofGrammar .sampleTurned .reject).value = .ok a := by
  constructor
  · have he : (ofGrammar .ambiguous .reject).value = .error (.conflict 'A' 'b' 'S' 'A') := rfl
    exact (ofGrammar_conflicts .ambiguous).2.2.2.1 _ he
  · have hok : (ofGrammar .sample .reject).value.isOk = true := by decide
    cases ha : (ofGrammar .sample .reject).value with
    | error e =>
      rw [ha] at hok
      cases hok
    | ok a =>
      obtain ⟨_, _, _, _, hreplace, hturned⟩ := ofGrammar_conflicts .sample
      exact ⟨a, rfl, hreplace a ha, (hturned _ Grammar.sample_reorders a).mp ha⟩

end CharGrammar
