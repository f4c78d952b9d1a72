import CharGrammar.Grammar.Basic

namespace CharGrammar

open Key (Before)

namespace Table

variable {κ α β : Type} [Key κ]

theorem entries_pairwise (t : Table κ α) :
    t.entries.Pairwise (fun d e => Before d.1 e.1) :=
  List.pairwise_map.mp t.ascending

variable [DecidableEq κ]

theorem mem_keys_iff {t : Table κ α} {k : κ} : k ∈ t.keys ↔ ∃ a, t.get? k = some a := by
  constructor
  · intro h
    obtain ⟨⟨x, a⟩, hm, rfl⟩ := List.mem_map.mp h
    exact ⟨a, get?_eq_some_iff.mpr hm⟩
  · intro h
    obtain ⟨a, ha⟩ := h
    exact List.mem_map.mpr ⟨(k, a), get?_eq_some_iff.mp ha, rfl⟩

theorem mem_values_iff {t : Table κ α} {a : α} : a ∈ t.values ↔ ∃ k, t.get? k = some a := by
  constructor
  · intro h
    obtain ⟨⟨k, b⟩, hm, rfl⟩ := List.mem_map.mp h
    exact ⟨k, get?_eq_some_iff.mpr hm⟩
  · intro h
    obtain ⟨k, hk⟩ := h
    exact List.mem_map.mpr ⟨(k, a), get?_eq_some_iff.mp hk, rfl⟩

omit [DecidableEq κ] in
theorem keys_mapValues {f : α → β} {t : Table κ α} : (t.mapValues f).keys = t.keys := by
  simp [keys, mapValues]

omit [DecidableEq κ] in
theorem values_mapValues {f : α → β} {t : Table κ α} :
    (t.mapValues f).values = t.values.map f := by
  simp [values, mapValues]

omit [DecidableEq κ] in
theorem mapValues_mapValues {γ : Type} {f : α → β} {g : β → γ} {t : Table κ α} :
    (t.mapValues f).mapValues g = t.mapValues (g ∘ f) := by
  simp [mapValues, Function.comp_def]

/-- Tables that hold the same at every key are equal: both list the same entries, in the one order
that there is. -/
theorem ext_get? {s t : Table κ α} (h : ∀ k, s.get? k = t.get? k) : s = t := by
  have hm : ∀ e, e ∈ s.entries ↔ e ∈ t.entries := by
    intro e
    obtain ⟨k, a⟩ := e
    rw [← get?_eq_some_iff, ← get?_eq_some_iff, h]
  exact ext_entries (Key.eq_of_ascending s.entries_pairwise t.entries_pairwise hm)

/-- A key has one entry at most. -/
theorem filter_entries {t : Table κ α} {k : κ} :
    t.entries.filter (·.1 = k) = ((t.get? k).map (k, ·)).toList := by
  obtain ⟨entries, ha⟩ := t
  unfold get?
  induction entries with
  | nil => rfl
  | cons e rest ih =>
    obtain ⟨x, a⟩ := e
    obtain ⟨hx, hr⟩ := List.pairwise_cons.mp ha
    rw [List.filter_cons, ih hr]
    by_cases he : x = k
    · subst he
      simp [lookup_eq_none_of_before hx]
    · have hb : (k == x) = false := beq_false_of_ne (Ne.symm he)
      simp [he, List.lookup_cons, hb]

/-- What is found first in a table is found at the least key that has any. -/
theorem findSome?_eq_some_iff {t : Table κ α} {f : κ × α → Option β} {b : β} :
    t.entries.findSome? f = some b ↔
      ∃ k a, t.get? k = some a ∧ f (k, a) = some b ∧
        ∀ k' a', t.get? k' = some a' → Before k' k → f (k', a') = none := by
  rw [List.findSome?_eq_some_iff]
  constructor
  · intro h
    obtain ⟨front, ⟨k, a⟩, back, hs, hb, hfront⟩ := h
    refine ⟨k, a, get?_eq_some_iff.mpr (by simp [hs]), hb, ?_⟩
    intro k' a' h' hbefore
    have hm := get?_eq_some_iff.mp h'
    have hp := t.entries_pairwise
    rw [hs] at hm hp
    rcases List.mem_append.mp hm with hm | hm
    · exact hfront _ hm
    · rcases List.mem_cons.mp hm with he | hm
      · cases he
        exact absurd rfl hbefore.ne
      · have hafter := (List.pairwise_cons.mp (List.pairwise_append.mp hp).2.1).1 _ hm
        exact absurd rfl (hbefore.trans hafter).ne
  · intro h
    obtain ⟨k, a, hk, hb, hleast⟩ := h
    obtain ⟨front, back, hs⟩ := List.append_of_mem (get?_eq_some_iff.mp hk)
    refine ⟨front, (k, a), back, hs, hb, ?_⟩
    intro e he
    have hp := t.entries_pairwise
    rw [hs] at hp
    have hbefore := (List.pairwise_append.mp hp).2.2 e he (k, a) List.mem_cons_self
    exact hleast e.1 e.2 (get?_eq_some_iff.mpr (by simp [hs, he])) hbefore

/-- What a partial function finds at one key, among the elements listed under all keys. -/
theorem filterMap_flatMap_lookup {f : κ × α → Option β} {k : κ} {entries : List (κ × List α)}
    (ha : (entries.map Prod.fst).Pairwise Before) (hf : ∀ p, p.1 ≠ k → f p = none) :
    (entries.flatMap fun e => e.2.map (e.1, ·)).filterMap f =
      ((entries.lookup k).getD []).filterMap fun a => f (k, a) := by
  induction entries with
  | nil => rfl
  | cons e rest ih =>
    obtain ⟨x, as⟩ := e
    obtain ⟨hx, hr⟩ := List.pairwise_cons.mp ha
    rw [List.flatMap_cons, List.filterMap_append, ih hr, List.filterMap_map]
    by_cases he : x = k
    · subst he
      rw [lookup_eq_none_of_before hx, List.lookup_cons_self]
      exact List.append_nil _
    · have hn : as.filterMap (f ∘ (x, ·)) = [] := by
        apply List.filterMap_eq_nil_iff.mpr
        intro a _
        exact hf (x, a) he
      have hb : (k == x) = false := beq_false_of_ne (Ne.symm he)
      rw [hn, List.lookup_cons, hb, List.nil_append]

end Table

/-- What is found first in a set is the least that could be found. -/
theorem OrderedSet.not_before_of_find? {κ : Type} [Key κ] {s : OrderedSet κ} {p : κ → Bool}
    {k x : κ} (h : s.toList.find? p = some k) (hx : x ∈ s) (hp : p x = true) : ¬ Before x k := by
  obtain ⟨_, front, back, hs, hfront⟩ := List.find?_eq_some_iff_append.mp h
  have ha := s.ascending
  have hm := OrderedSet.mem_toList.mpr hx
  rw [hs] at ha hm
  rcases List.mem_append.mp hm with hm | hm
  · have hn := hfront x hm
    rw [hp] at hn
    cases hn
  · rcases List.mem_cons.mp hm with rfl | hm
    · exact Nat.lt_irrefl _
    · have hb := (List.pairwise_cons.mp (List.pairwise_append.mp ha).2.1).1 x hm
      exact fun hxk => (hxk.trans hb).ne rfl

theorem OrderedSet.find?_eq_some_iff {κ : Type} [Key κ] {s : OrderedSet κ} {p : κ → Bool} {k : κ} :
    s.toList.find? p = some k ↔ k ∈ s ∧ p k = true ∧ ∀ x ∈ s, p x = true → ¬ Before x k := by
  constructor
  · intro h
    exact ⟨List.mem_of_find?_eq_some h, List.find?_some h, fun x => not_before_of_find? h⟩
  · intro h
    obtain ⟨hk, hp, hleast⟩ := h
    cases hf : s.toList.find? p with
    | none => exact absurd hp (List.find?_eq_none.mp hf k hk)
    | some x =>
      have hx := hleast x (List.mem_of_find?_eq_some hf) (List.find?_some hf)
      have hk := not_before_of_find? hf hk hp
      have he : x = k := Key.rank_injective (Nat.le_antisymm (Nat.not_lt.mp hk) (Nat.not_lt.mp hx))
      rw [he]

/-- Characters stand by code point, and pairs of them by the first and then by the second. -/
theorem Key.before_char_iff {x y : Char} : Before x y ↔ x < y :=
  UInt32.lt_iff_toNat_lt.symm

theorem Key.not_before_char_iff {x y : Char} : ¬ Before x y ↔ y ≤ x := by
  rw [before_char_iff, Char.not_lt]

theorem Key.before_pair_iff {x y s t : Char} :
    Before (x, s) (y, t) ↔ x < y ∨ x = y ∧ s < t := by
  have hs := toNat_lt_char_bound s
  have ht := toNat_lt_char_bound t
  have hxy : x = y ↔ x.toNat = y.toNat := Char.toNat_inj.symm
  rw [← before_char_iff, ← before_char_iff, hxy]
  change x.toNat * 0x110000 + s.toNat < y.toNat * 0x110000 + t.toNat ↔
    x.toNat < y.toNat ∨ x.toNat = y.toNat ∧ s.toNat < t.toNat
  omega

namespace Grammar

/-- Where the start symbol is declared and all rules are valid, only a shared symbol is a fault. -/
theorem Parts.fault?_of_validRules {p : Parts} (hs : p.start ∈ p.nonterminals)
    (hr : ∀ e ∈ p.rules.entries, p.ValidRule e.1 e.2) :
    p.fault? = (p.nonterminals.toList.find? (· ∈ p.terminals)).map .sharedSymbol := by
  have hn : p.rules.entries.findSome? (fun e => p.ruleFault? e.1 e.2) = none := by
    rw [List.findSome?_eq_none_iff]
    exact fun e he => ruleFault?_eq_none_iff.mpr (hr e he)
  unfold fault?
  rw [if_neg (not_not_intro hs), hn]
  cases p.nonterminals.toList.find? (· ∈ p.terminals) <;> rfl

variable {g : Grammar} {x : Char} {body : Body} {alternative : Alternative}

theorem validRule (h : g.alternatives? x = some body) : g.ValidRule x body :=
  g.valid.rules_valid (x, body) (Table.get?_eq_some_iff.mp h)

/-- Only a nonterminal without a rule has no first alternative. -/
theorem alternatives?_eq_none (h : ∀ first rest, g.alternatives? x ≠ some (first :: rest)) :
    g.alternatives? x = none := by
  cases hb : g.alternatives? x with
  | none => rfl
  | some body =>
    cases body with
    | nil => exact absurd rfl (validRule hb).body_ne_nil
    | cons first rest => exact absurd hb (h first rest)

theorem mem_productions_iff :
    (x, alternative) ∈ g.productions ↔
      ∃ body, g.alternatives? x = some body ∧ alternative ∈ body := by
  constructor
  · intro h
    obtain ⟨⟨y, body⟩, he, hm⟩ := List.mem_flatMap.mp h
    obtain ⟨a, ha, hp⟩ := List.mem_map.mp hm
    cases hp
    exact ⟨body, Table.get?_eq_some_iff.mpr he, ha⟩
  · intro h
    obtain ⟨body, hb, hm⟩ := h
    exact List.mem_flatMap.mpr
      ⟨(x, body), Table.get?_eq_some_iff.mp hb, List.mem_map.mpr ⟨alternative, hm, rfl⟩⟩

/-- Where only one head counts, the productions are the alternatives of that head. -/
theorem filterMap_productions {β : Type} {f : Char × Alternative → Option β}
    (hf : ∀ p, p.1 ≠ x → f p = none) :
    g.productions.filterMap f =
      ((g.alternatives? x).getD []).filterMap fun a => f (x, a) :=
  Table.filterMap_flatMap_lookup g.rules.ascending hf

end Grammar

end CharGrammar
