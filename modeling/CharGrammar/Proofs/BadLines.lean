import CharGrammar.Proofs.Readings

namespace CharGrammar.RuleFile

/-- Why a piece between bars states no alternative. -/
inductive BadPiece : List Token → RuleFault → Prop
  | empty : BadPiece [] .emptyAlternative
  | equals {piece : List Token} (mem : .equals ∈ piece) : BadPiece piece .unexpectedEquals

/-- The first thing that is wrong with the tokens of a line. -/
inductive BadTokens : List Token → RuleFault → Prop
  | blank : BadTokens [] .blankRule
  | missingHead {first : Token} {rest : List Token}
      (first_ne : ∀ head, first ≠ .symbol (.nonterminal head)) :
      BadTokens (first :: rest) .missingHead
  | missingEquals {head : Char} {rest : List Token} (second_ne : rest.head? ≠ some .equals) :
      BadTokens (.symbol (.nonterminal head) :: rest) .missingEquals
  | badPiece {head : Char} {rest piece : List Token} {front back : List (List Token)}
      {fault : RuleFault} (cut : rest.splitOn .bar = front ++ piece :: back)
      (before : ∀ good ∈ front, ∃ alternative : Alternative,
        alternative ≠ [] ∧ good = alternative.map Token.symbol)
      (bad : BadPiece piece fault) :
      BadTokens (.symbol (.nonterminal head) :: .equals :: rest) fault

/-- The first thing that is wrong with a line. -/
inductive BadLine (line : List Char) : RuleFault → Prop
  | unclosed {fault : RuleFault} (lexed : Token.lex line = .error fault) :
      BadLine line .unclosedQuote
  | tokens {tokens : List Token} {fault : RuleFault} (lexed : Token.lex line = .ok tokens)
      (bad : BadTokens tokens fault) : BadLine line fault

variable {line : List Char} {tokens piece : List Token} {fault : RuleFault}

theorem BadPiece.not_symbols {alternative : Alternative} (h : BadPiece piece fault)
    (hne : alternative ≠ []) : piece ≠ alternative.map Token.symbol := by
  intro hp
  cases h with
  | empty => exact hne (List.map_eq_nil_iff.mp hp.symm)
  | equals mem =>
    rw [hp] at mem
    obtain ⟨s, _, hs⟩ := List.mem_map.mp mem
    cases hs

theorem BadPiece.unique {fault' : RuleFault} (h : BadPiece piece fault)
    (h' : BadPiece piece fault') : fault = fault' := by
  cases h with
  | empty =>
    cases h' with
    | empty => rfl
    | equals mem => cases mem
  | equals mem =>
    cases h' with
    | empty => cases mem
    | equals => rfl

theorem badPiece_of_readAlternative (hb : .bar ∉ piece)
    (h : readAlternative piece = .error fault) : BadPiece piece fault := by
  unfold readAlternative at h
  split at h
  · next hn =>
    cases h
    subst hn
    exact .empty
  · obtain ⟨token, ht, hs⟩ := exists_of_mapM_error h
    cases token with
    | equals =>
      cases hs
      exact .equals ht
    | bar => exact absurd ht hb
    | symbol s => cases hs

/-- Where no bar is left, a piece is empty, or holds an equals sign, or states an alternative. -/
theorem readAlternative_eq_error_iff (hb : .bar ∉ piece) :
    readAlternative piece = .error fault ↔ BadPiece piece fault := by
  refine ⟨badPiece_of_readAlternative hb, ?_⟩
  intro h
  cases hr : readAlternative piece with
  | ok alternative =>
    obtain ⟨hne, hp⟩ := readAlternative_eq_ok_iff.mp hr
    exact absurd hp (h.not_symbols hne)
  | error fault' => rw [h.unique (badPiece_of_readAlternative hb hr)]

/-- A body fails by its leftmost bad piece. -/
theorem readBody_eq_error_iff :
    readBody tokens = .error fault ↔
      ∃ front piece back, tokens.splitOn .bar = front ++ piece :: back ∧
        (∀ good ∈ front, ∃ alternative : Alternative,
          alternative ≠ [] ∧ good = alternative.map Token.symbol) ∧
        BadPiece piece fault := by
  rw [readBody, mapM_eq_error_iff]
  simp only [readAlternative_eq_ok_iff]
  constructor
  · rintro ⟨front, piece, back, hs, hfront, hp⟩
    have hb := Text.not_mem_of_mem_splitOn (hs ▸ List.mem_append_right _ List.mem_cons_self)
    exact ⟨front, piece, back, hs, hfront, (readAlternative_eq_error_iff hb).mp hp⟩
  · rintro ⟨front, piece, back, hs, hfront, hp⟩
    have hb := Text.not_mem_of_mem_splitOn (hs ▸ List.mem_append_right _ List.mem_cons_self)
    exact ⟨front, piece, back, hs, hfront, (readAlternative_eq_error_iff hb).mpr hp⟩

theorem map_eq_error_iff {α β ε : Type} {f : α → β} {answer : Except ε α} {e : ε} :
    answer.map f = .error e ↔ answer = .error e := by
  cases answer <;> simp [Except.map]

theorem ofTokens_eq_error_iff : Rule.ofTokens tokens = .error fault ↔ BadTokens tokens fault := by
  constructor
  · intro h
    unfold Rule.ofTokens at h
    split at h
    · cases h
      exact .blank
    · obtain ⟨front, piece, back, cut, before, bad⟩ :=
        readBody_eq_error_iff.mp (map_eq_error_iff.mp h)
      exact .badPiece cut before bad
    · next rest hrest =>
      cases h
      refine .missingEquals ?_
      intro hh
      obtain ⟨others, rfl⟩ := List.head?_eq_some_iff.mp hh
      exact hrest _ rfl
    · next first rest _ hfirst =>
      cases h
      exact .missingHead hfirst
  · intro h
    cases h with
    | blank => rfl
    | @missingHead first rest first_ne =>
      cases first with
      | equals => rfl
      | bar => rfl
      | symbol s =>
        cases s with
        | terminal c => rfl
        | nonterminal c => exact absurd rfl (first_ne c)
    | @missingEquals head rest second_ne =>
      cases rest with
      | nil => rfl
      | cons second others =>
        cases second with
        | equals => exact absurd rfl second_ne
        | bar => rfl
        | symbol s => rfl
    | badPiece cut before bad =>
      exact map_eq_error_iff.mpr (readBody_eq_error_iff.mpr ⟨_, _, _, cut, before, bad⟩)

theorem read_of_lex (h : Token.lex line = .ok tokens) : Rule.read line = Rule.ofTokens tokens := by
  rw [Rule.read, h]
  rfl

theorem read_eq_error_iff : Rule.read line = .error fault ↔ BadLine line fault := by
  constructor
  · intro h
    cases hl : Token.lex line with
    | ok tokens =>
      rw [read_of_lex hl] at h
      exact .tokens hl (ofTokens_eq_error_iff.mp h)
    | error fault' =>
      rcases read_error_cases h with rfl | ⟨tokens, ht, _⟩
      · exact .unclosed hl
      · rw [hl] at ht
        cases ht
  · intro h
    cases h with
    | unclosed lexed =>
      rw [Rule.read]
      rw [Token.lex, Token.lexFrom_eq] at lexed ⊢
      split at lexed
      · next ho =>
        rw [if_pos ho]
        rfl
      · cases lexed
    | tokens lexed bad => rw [read_of_lex lexed, ofTokens_eq_error_iff.mpr bad]

/-- A line is accepted exactly if its tokens are a nonterminal, an equals sign and alternatives with
bars between them, each with symbols and nothing else, and then these are the rule. Otherwise it is
refused for the first thing that is wrong with it. -/
theorem read_answered (line : List Char) :
    (∀ rule, Rule.read line = .ok rule ↔
      Token.lex line =
        .ok (.symbol (.nonterminal rule.head) :: .equals :: bodyTokens rule.body) ∧
      rule.body ≠ [] ∧ ∀ alternative ∈ rule.body, alternative ≠ []) ∧
    ∀ fault, Rule.read line = .error fault ↔ BadLine line fault := by
  refine ⟨?_, fun fault => read_eq_error_iff⟩
  intro rule
  rw [read_eq_ok_iff]
  constructor
  · rintro ⟨hl, hs⟩
    exact ⟨hl, hs.body_ne_nil, hs.alternative_ne_nil⟩
  · rintro ⟨hl, hb, hne⟩
    exact ⟨hl, hb, hne⟩

/-- The empty piece is told of, and not the equals sign to its right. -/
example : Rule.read "S = a | | b =".toList = .error .emptyAlternative := rfl

end CharGrammar.RuleFile
