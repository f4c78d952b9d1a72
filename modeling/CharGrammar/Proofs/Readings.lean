import CharGrammar.Proofs.Lines
import CharGrammar.RuleFile.Rule

namespace CharGrammar.RuleFile

namespace Token

/-- The tokens of a line whether or not its quotes are closed. -/
def reading (quoted : Bool) : List Char → List Token
  | [] => []
  | c :: rest =>
    if c = '"' then reading (!quoted) rest
    else if quoted then .symbol (.terminal c) :: reading true rest
    else (ofChar? c).toList ++ reading false rest

/-- Whether a quote is open after a line. -/
def openAfter (quoted : Bool) : List Char → Bool
  | [] => quoted
  | c :: rest => openAfter (if c = '"' then !quoted else quoted) rest

theorem lexFrom_eq {quoted : Bool} {line : List Char} :
    lexFrom quoted line =
      if openAfter quoted line then .error .unclosedQuote else .ok (reading quoted line) := by
  induction line generalizing quoted with
  | nil => rfl
  | cons c rest ih =>
    unfold lexFrom reading openAfter
    by_cases hc : c = '"'
    · simp only [if_pos hc, ih]
    · cases quoted <;> simp only [if_neg hc, ih, if_true, Bool.false_eq_true, if_false] <;>
        split <;> rfl

theorem lex_eq_ok_iff {line : List Char} {tokens : List Token} :
    lex line = .ok tokens ↔ openAfter false line = false ∧ reading false line = tokens := by
  rw [lex, lexFrom_eq]
  cases openAfter false line <;> simp

theorem reading_quote {quoted : Bool} {rest : List Char} :
    reading quoted ('"' :: rest) = reading (!quoted) rest := rfl

theorem openAfter_quote {quoted : Bool} {rest : List Char} :
    openAfter quoted ('"' :: rest) = openAfter (!quoted) rest := rfl

theorem reading_cons {quoted : Bool} {c : Char} {rest : List Char} (h : c ≠ '"') :
    reading quoted (c :: rest) =
      (if quoted then [.symbol (.terminal c)] else (ofChar? c).toList) ++ reading quoted rest := by
  cases quoted <;> simp [reading, h]

theorem openAfter_cons {quoted : Bool} {c : Char} {rest : List Char} (h : c ≠ '"') :
    openAfter quoted (c :: rest) = openAfter quoted rest := by
  simp [openAfter, h]

theorem openAfter_append {quoted : Bool} {front back : List Char} :
    openAfter quoted (front ++ back) = openAfter (openAfter quoted front) back := by
  induction front generalizing quoted with
  | nil => rfl
  | cons c rest ih => exact ih

theorem reading_append {quoted : Bool} {front back : List Char} :
    reading quoted (front ++ back) =
      reading quoted front ++ reading (openAfter quoted front) back := by
  induction front generalizing quoted with
  | nil => rfl
  | cons c rest ih =>
    rw [List.cons_append]
    by_cases hc : c = '"'
    · subst hc
      rw [reading_quote, reading_quote, openAfter_quote, ih]
    · rw [reading_cons hc, reading_cons hc, openAfter_cons hc, ih, List.append_assoc]

/-- A quote is open after a line exactly if the quotes in it are odd in number, counting one that
was open before. -/
theorem openAfter_iff {quoted : Bool} {line : List Char} :
    openAfter quoted line = true ↔ (quoted.toNat + line.count '"') % 2 = 1 := by
  induction line generalizing quoted with
  | nil => cases quoted <;> simp [openAfter]
  | cons c rest ih =>
    by_cases hc : c = '"'
    · subst hc
      rw [openAfter_quote, ih, List.count_cons_self]
      cases quoted
      · change (1 + _) % 2 = 1 ↔ (0 + (_ + 1)) % 2 = 1
        omega
      · change (0 + _) % 2 = 1 ↔ (1 + (_ + 1)) % 2 = 1
        omega
    · rw [openAfter_cons hc, ih, List.count_cons_of_ne hc]

theorem openAfter_of_even {line : List Char} (h : line.count '"' % 2 = 0) :
    openAfter false line = false := by
  rw [← Bool.not_eq_true, openAfter_iff]
  change ¬ (0 + _) % 2 = 1
  omega

theorem lex_append {front back : List Char} {as bs : List Token} (hf : lex front = .ok as)
    (hb : lex back = .ok bs) : lex (front ++ back) = .ok (as ++ bs) := by
  obtain ⟨hfo, rfl⟩ := lex_eq_ok_iff.mp hf
  obtain ⟨hbo, rfl⟩ := lex_eq_ok_iff.mp hb
  rw [lex_eq_ok_iff, openAfter_append, reading_append, hfo]
  exact ⟨hbo, rfl⟩

end Token

/-- What a rule line can hold: an uppercase nonterminal, or any terminal but a quote or a line
end. -/
def Writable : Symbol → Prop
  | .terminal c => c ≠ '"' ∧ c ≠ '\n'
  | .nonterminal c => c.isUpper = true

theorem Token.writable_of_ofChar? {c : Char} {s : Symbol} (h : ofChar? c = some (.symbol s))
    (hq : c ≠ '"') (hn : c ≠ '\n') : Writable s := by
  unfold ofChar? at h
  split at h
  · cases h
  · split at h
    · cases h
    · split at h
      · cases h
      · split at h
        · next hu =>
          cases h
          exact hu
        · cases h
          exact ⟨hq, hn⟩

theorem Token.writable_of_mem_reading {quoted : Bool} {line : List Char} {s : Symbol}
    (hn : '\n' ∉ line) (h : .symbol s ∈ reading quoted line) : Writable s := by
  induction line generalizing quoted with
  | nil => cases h
  | cons c rest ih =>
    simp only [List.mem_cons, not_or] at hn
    unfold reading at h
    split at h
    · exact ih hn.2 h
    · next hq =>
      split at h
      · rcases List.mem_cons.mp h with he | h
        · cases he
          exact ⟨hq, Ne.symm hn.1⟩
        · exact ih hn.2 h
      · rcases List.mem_append.mp h with h | h
        · exact writable_of_ofChar? (Option.mem_toList.mp h) hq (Ne.symm hn.1)
        · exact ih hn.2 h

/-- The tokens of a body, with bars between its alternatives. -/
def bodyTokens (body : Body) : List Token :=
  [Token.bar].intercalate (body.map (List.map Token.symbol))

def Rule.tokens (r : Rule) : List Token :=
  .symbol (.nonterminal r.head) :: .equals :: bodyTokens r.body

/-- A rule that a line can state has alternatives, and symbols in each. -/
structure Rule.Stated (r : Rule) : Prop where
  body_ne_nil : r.body ≠ []
  alternative_ne_nil : ∀ alternative ∈ r.body, alternative ≠ []

section Mapped

variable {α β ε : Type} {f : α → Except ε β} {g : β → α} {p : β → Prop}

theorem mapM_cons_eq_ok_iff {x : α} {xs : List α} {ys : List β} :
    (x :: xs).mapM f = .ok ys ↔
      ∃ y rest, f x = .ok y ∧ xs.mapM f = .ok rest ∧ ys = y :: rest := by
  rw [List.mapM_cons]
  cases hx : f x with
  | error e => simp [bind, Except.bind]
  | ok y =>
    cases hr : xs.mapM f with
    | error e => simp [bind, Except.bind]
    | ok rest => simp [bind, Except.bind, pure, Except.pure, eq_comm]

/-- Where each element has one possible origin, so has the list of them. -/
theorem mapM_eq_ok_iff (h : ∀ x y, f x = .ok y ↔ p y ∧ x = g y) {xs : List α} {ys : List β} :
    xs.mapM f = .ok ys ↔ (∀ y ∈ ys, p y) ∧ xs = ys.map g := by
  induction xs generalizing ys with
  | nil => cases ys <;> simp [pure, Except.pure]
  | cons x rest ih =>
    rw [mapM_cons_eq_ok_iff]
    constructor
    · intro hm
      obtain ⟨y, others, hx, hr, rfl⟩ := hm
      obtain ⟨hp, rfl⟩ := (h x y).mp hx
      obtain ⟨hps, rfl⟩ := ih.mp hr
      exact ⟨List.forall_mem_cons.mpr ⟨hp, hps⟩, rfl⟩
    · intro hm
      obtain ⟨hp, he⟩ := hm
      cases ys with
      | nil => cases he
      | cons y others =>
        obtain ⟨hx, hr⟩ := List.cons.inj he
        obtain ⟨hpy, hps⟩ := List.forall_mem_cons.mp hp
        exact ⟨y, others, (h x y).mpr ⟨hpy, hx⟩, ih.mpr ⟨hps, hr⟩, rfl⟩

theorem mapM_cons_eq_error_iff {x : α} {xs : List α} {e : ε} :
    (x :: xs).mapM f = .error e ↔
      f x = .error e ∨ (∃ y, f x = .ok y) ∧ xs.mapM f = .error e := by
  rw [List.mapM_cons]
  cases hx : f x with
  | error e' => simp [bind, Except.bind]
  | ok y => cases hr : xs.mapM f <;> simp [bind, Except.bind, pure, Except.pure]

/-- A list fails by its leftmost element that fails. -/
theorem mapM_eq_error_iff {xs : List α} {e : ε} :
    xs.mapM f = .error e ↔
      ∃ front x back, xs = front ++ x :: back ∧ (∀ y ∈ front, ∃ z, f y = .ok z) ∧
        f x = .error e := by
  induction xs with
  | nil =>
    refine ⟨nofun, ?_⟩
    rintro ⟨front, x, back, hs, _⟩
    cases front <;> cases hs
  | cons first rest ih =>
    rw [mapM_cons_eq_error_iff, ih]
    constructor
    · rintro (hx | ⟨hfirst, front, x, back, rfl, hfront, hx⟩)
      · exact ⟨[], first, rest, rfl, nofun, hx⟩
      · exact ⟨first :: front, x, back, rfl, List.forall_mem_cons.mpr ⟨hfirst, hfront⟩, hx⟩
    · rintro ⟨front, x, back, hs, hfront, hx⟩
      cases front with
      | nil =>
        cases hs
        exact .inl hx
      | cons _ front =>
        obtain ⟨rfl, rfl⟩ := List.cons.inj hs
        obtain ⟨hfirst, hfront⟩ := List.forall_mem_cons.mp hfront
        exact .inr ⟨hfirst, front, x, back, rfl, hfront, hx⟩

theorem exists_of_mapM_error {xs : List α} {e : ε} (h : xs.mapM f = .error e) :
    ∃ x ∈ xs, f x = .error e := by
  obtain ⟨front, x, back, rfl, _, hx⟩ := mapM_eq_error_iff.mp h
  exact ⟨x, List.mem_append_right _ List.mem_cons_self, hx⟩

end Mapped

theorem symbol?_eq_ok_iff {token : Token} {s : Symbol} :
    token.symbol? = .ok s ↔ True ∧ token = .symbol s := by
  cases token <;> simp [Token.symbol?]

theorem readAlternative_eq_ok_iff {tokens : List Token} {alternative : Alternative} :
    readAlternative tokens = .ok alternative ↔
      alternative ≠ [] ∧ tokens = alternative.map Token.symbol := by
  have hm : tokens.mapM Token.symbol? = .ok alternative ↔ _ :=
    mapM_eq_ok_iff fun _ _ => symbol?_eq_ok_iff
  unfold readAlternative
  split
  · next h =>
    subst h
    refine ⟨nofun, ?_⟩
    intro he
    exact absurd (List.map_eq_nil_iff.mp he.2.symm) he.1
  · next h =>
    rw [hm]
    constructor
    · intro he
      refine ⟨?_, he.2⟩
      intro hn
      subst hn
      exact h he.2
    · intro he
      exact ⟨fun _ _ => trivial, he.2⟩

/-- A body is read from exactly its own tokens, if it has alternatives and each has symbols. -/
theorem readBody_eq_ok_iff {tokens : List Token} {body : Body} :
    readBody tokens = .ok body ↔
      (body ≠ [] ∧ ∀ alternative ∈ body, alternative ≠ []) ∧ tokens = bodyTokens body := by
  rw [readBody, mapM_eq_ok_iff (fun _ _ => readAlternative_eq_ok_iff)]
  constructor
  · intro h
    obtain ⟨hne, hs⟩ := h
    refine ⟨⟨?_, hne⟩, ?_⟩
    · intro hb
      subst hb
      exact List.splitOn_ne_nil _ _ hs
    · rw [bodyTokens, ← hs, List.intercalate_splitOn]
  · intro h
    obtain ⟨⟨hb, hne⟩, rfl⟩ := h
    refine ⟨hne, ?_⟩
    apply List.splitOn_intercalate
    · intro piece hp hm
      obtain ⟨alternative, _, rfl⟩ := List.mem_map.mp hp
      obtain ⟨s, _, hs⟩ := List.mem_map.mp hm
      cases hs
    · simpa using hb

theorem ofTokens_eq_ok_iff {tokens : List Token} {r : Rule} :
    Rule.ofTokens tokens = .ok r ↔ r.Stated ∧ tokens = r.tokens := by
  obtain ⟨head, body⟩ := r
  have hmap : ∀ {x : Char} {rest : List Token},
      (readBody rest).map (Rule.mk x) = .ok ⟨head, body⟩ ↔
        x = head ∧ readBody rest = .ok body := by
    intro x rest
    cases readBody rest <;> simp [Except.map]
  unfold Rule.ofTokens Rule.tokens
  constructor
  · intro h
    split at h
    · cases h
    · obtain ⟨rfl, hr⟩ := hmap.mp h
      obtain ⟨⟨hb, hne⟩, rfl⟩ := readBody_eq_ok_iff.mp hr
      exact ⟨⟨hb, hne⟩, rfl⟩
    · cases h
    · cases h
  · intro h
    obtain ⟨hs, rfl⟩ := h
    exact hmap.mpr ⟨rfl, readBody_eq_ok_iff.mpr ⟨⟨hs.body_ne_nil, hs.alternative_ne_nil⟩, rfl⟩⟩

/-- A line states a rule exactly if it holds the tokens of the rule. -/
theorem read_eq_ok_iff {line : List Char} {r : Rule} :
    Rule.read line = .ok r ↔ Token.lex line = .ok r.tokens ∧ r.Stated := by
  unfold Rule.read
  cases hl : Token.lex line with
  | error fault =>
    refine ⟨nofun, ?_⟩
    intro h
    cases h.1
  | ok tokens =>
    rw [show (Except.ok tokens >>= Rule.ofTokens) = Rule.ofTokens tokens from rfl,
      ofTokens_eq_ok_iff, Except.ok.injEq, and_comm]

section Errors

variable {tokens : List Token} {line : List Char} {fault : RuleFault}

theorem readAlternative_error_cases (h : readAlternative tokens = .error fault) :
    fault = .emptyAlternative ∨ ∃ token ∈ tokens, token.symbol? = .error fault := by
  unfold readAlternative at h
  split at h
  · cases h
    exact .inl rfl
  · exact .inr (exists_of_mapM_error h)

theorem readBody_error_cases (h : readBody tokens = .error fault) :
    fault = .emptyAlternative ∨
      ∃ piece ∈ tokens.splitOn .bar, ∃ token ∈ piece, token.symbol? = .error fault := by
  obtain ⟨piece, hp, hread⟩ := exists_of_mapM_error h
  rcases readAlternative_error_cases hread with he | ht
  · exact .inl he
  · exact .inr ⟨piece, hp, ht⟩

theorem ofTokens_error_cases (h : Rule.ofTokens tokens = .error fault) :
    (tokens = [] ∧ fault = .blankRule) ∨ fault = .missingEquals ∨ fault = .missingHead ∨
      ∃ rest, readBody rest = .error fault := by
  unfold Rule.ofTokens at h
  split at h
  · cases h
    exact .inl ⟨rfl, rfl⟩
  · next head rest =>
    cases hb : readBody rest with
    | ok body =>
      rw [hb] at h
      cases h
    | error fault' =>
      rw [hb] at h
      cases h
      exact .inr (.inr (.inr ⟨rest, hb⟩))
  · cases h
    exact .inr (.inl rfl)
  · cases h
    exact .inr (.inr (.inl rfl))

theorem read_error_cases (h : Rule.read line = .error fault) :
    fault = .unclosedQuote ∨
      ∃ tokens, Token.lex line = .ok tokens ∧ Rule.ofTokens tokens = .error fault := by
  unfold Rule.read at h
  cases hl : Token.lex line with
  | ok tokens =>
    rw [hl] at h
    exact .inr ⟨tokens, rfl, h⟩
  | error fault' =>
    rw [hl] at h
    cases h
    rw [Token.lex, Token.lexFrom_eq] at hl
    split at hl
    · cases hl
      exact .inl rfl
    · cases hl

/-- What can be wrong with a line by itself. -/
inductive OfLine : RuleFault → Prop
  | missingEquals : OfLine .missingEquals
  | unexpectedEquals : OfLine .unexpectedEquals
  | missingHead : OfLine .missingHead
  | unclosedQuote : OfLine .unclosedQuote
  | emptyAlternative : OfLine .emptyAlternative
  | strayBar : OfLine .strayBar
  | blankRule : OfLine .blankRule

theorem ofLine_of_readBody (h : readBody tokens = .error fault) : OfLine fault := by
  rcases readBody_error_cases h with rfl | ⟨_, _, token, _, ht⟩
  · exact .emptyAlternative
  · cases token with
    | equals =>
      cases ht
      exact .unexpectedEquals
    | bar =>
      cases ht
      exact .strayBar
    | symbol s => cases ht

theorem ofLine_of_ofTokens (h : Rule.ofTokens tokens = .error fault) : OfLine fault := by
  rcases ofTokens_error_cases h with ⟨_, rfl⟩ | rfl | rfl | ⟨rest, hr⟩
  · exact .blankRule
  · exact .missingEquals
  · exact .missingHead
  · exact ofLine_of_readBody hr

theorem ofLine_of_read (h : Rule.read line = .error fault) : OfLine fault := by
  rcases read_error_cases h with rfl | ⟨tokens, _, ht⟩
  · exact .unclosedQuote
  · exact ofLine_of_ofTokens ht

end Errors

theorem symbol_mem_bodyTokens {body : Body} {alternative : Alternative} {s : Symbol}
    (hm : alternative ∈ body) (hs : s ∈ alternative) : Token.symbol s ∈ bodyTokens body := by
  induction body with
  | nil => cases hm
  | cons first rest ih =>
    cases rest with
    | nil =>
      cases List.mem_singleton.mp hm
      simpa [bodyTokens] using hs
    | cons second others =>
      rw [bodyTokens, List.map_cons, List.map_cons, List.intercalate_cons_cons, ← List.map_cons,
        ← bodyTokens]
      rcases List.mem_cons.mp hm with rfl | hm
      · simp [hs]
      · exact List.mem_append_right _ (ih hm)

/-- A rule that a line can state, and that has a line of its own. -/
structure Rule.Printable (r : Rule) : Prop where
  head_upper : r.head.isUpper = true
  stated : r.Stated
  writable : ∀ alternative ∈ r.body, ∀ s ∈ alternative, Writable s

theorem printable_of_read {line : List Char} {r : Rule} (hn : '\n' ∉ line)
    (h : Rule.read line = .ok r) : r.Printable := by
  obtain ⟨hl, hs⟩ := read_eq_ok_iff.mp h
  obtain ⟨_, ht⟩ := Token.lex_eq_ok_iff.mp hl
  have hw : ∀ s, Token.symbol s ∈ r.tokens → Writable s := by
    intro s hm
    rw [← ht] at hm
    exact Token.writable_of_mem_reading hn hm
  refine ⟨hw (.nonterminal r.head) List.mem_cons_self, hs, ?_⟩
  intro alternative ha s hs
  have hm := symbol_mem_bodyTokens ha hs
  exact hw s (List.mem_cons_of_mem _ (List.mem_cons_of_mem _ hm))

end CharGrammar.RuleFile
