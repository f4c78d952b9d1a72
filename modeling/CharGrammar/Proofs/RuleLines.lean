import CharGrammar.Grammar.Render
import CharGrammar.Proofs.Readings

namespace CharGrammar

variable {c : Char}

theorem isBlank_eq_false_of_isUpper (h : c.isUpper = true) : Text.isBlank c = false := by
  have hu : 'A'.val ≤ c.val ∧ c.val ≤ 'Z'.val := of_decide_eq_true h
  have hl : 65 ≤ c.toNat := UInt32.le_iff_toNat_le.mp hu.1
  have hh : c.toNat ≤ 90 := UInt32.le_iff_toNat_le.mp hu.2
  simp only [Text.isBlank, Text.blankRanges, List.any_cons, List.any_nil, Bool.or_false,
    Bool.or_eq_false_iff, Bool.and_eq_false_iff, decide_eq_false_iff_not]
  omega

namespace RuleFile

/-- A text that lies within one line and is read there as the given tokens. -/
structure Prints (text : List Char) (tokens : List Token) : Prop where
  lex_eq : Token.lex text = .ok tokens
  lineEnd_not_mem : '\n' ∉ text
  getLast?_ne : text.getLast? ≠ some '\r'

namespace Prints

theorem nil : Prints [] [] := ⟨rfl, List.not_mem_nil, nofun⟩

theorem append {front back : List Char} {as bs : List Token} (hf : Prints front as)
    (hb : Prints back bs) : Prints (front ++ back) (as ++ bs) where
  lex_eq := Token.lex_append hf.lex_eq hb.lex_eq
  lineEnd_not_mem := by
    intro h
    rcases List.mem_append.mp h with h | h
    · exact hf.lineEnd_not_mem h
    · exact hb.lineEnd_not_mem h
  getLast?_ne := by
    rw [List.getLast?_append]
    cases hl : back.getLast? with
    | none => exact hf.getLast?_ne
    | some d =>
      have hd := hb.getLast?_ne
      rw [hl] at hd
      exact hd

/-- A terminal is quoted whenever it would not be read as itself. -/
theorem terminal (hq : c ≠ '"') (hn : c ≠ '\n') :
    Prints (Symbol.terminal c).render [.symbol (.terminal c)] := by
  simp only [Symbol.render]
  split
  · refine ⟨?_, ?_, ?_⟩
    · simp [Token.lex, Token.lexFrom, hq, Except.map]
    · simp [hn.symm]
    · simp
  · next hm =>
    simp only [mustQuote, Bool.or_eq_true, decide_eq_true_eq, not_or, Bool.not_eq_true] at hm
    obtain ⟨⟨⟨hu, hb⟩, he⟩, ho⟩ := hm
    have hr : c ≠ '\r' := by
      intro h
      subst h
      cases hb
    refine ⟨?_, ?_, ?_⟩
    · simp [Token.lex, Token.lexFrom, Token.ofChar?, hq, he, ho, hb, hu, Except.map]
    · simp [hn.symm]
    · simpa using hr

theorem nonterminal (hu : c.isUpper = true) :
    Prints (Symbol.nonterminal c).render [.symbol (.nonterminal c)] := by
  have hb := isBlank_eq_false_of_isUpper hu
  have hne : ∀ d : Char, d.isUpper = false → c ≠ d := by
    intro d hd he
    subst he
    rw [hu] at hd
    cases hd
  refine ⟨?_, ?_, ?_⟩
  · simp [Symbol.render, Token.lex, Token.lexFrom, Token.ofChar?, hb, hu, Except.map,
      hne '"' rfl, hne '=' rfl, hne '|' rfl]
  · simpa [Symbol.render] using (hne '\n' rfl).symm
  · simpa [Symbol.render] using hne '\r' rfl

theorem symbol {s : Symbol} (h : Writable s) : Prints s.render [.symbol s] := by
  cases s with
  | terminal c => exact terminal h.1 h.2
  | nonterminal c => exact nonterminal h

theorem alternative {alternative : Alternative} (h : ∀ s ∈ alternative, Writable s) :
    Prints alternative.render (alternative.map Token.symbol) := by
  induction alternative with
  | nil => exact nil
  | cons s rest ih =>
    have hr := ih fun r hr => h r (List.mem_cons_of_mem _ hr)
    exact (symbol (h s List.mem_cons_self)).append hr

theorem bar : Prints [' ', '|', ' '] [.bar] := ⟨rfl, by decide, by decide⟩

theorem body {body : Body} (h : ∀ alternative ∈ body, ∀ s ∈ alternative, Writable s) :
    Prints (Body.render body) (bodyTokens body) := by
  induction body with
  | nil => exact nil
  | cons first rest ih =>
    have hf := alternative (h first List.mem_cons_self)
    have hr := ih fun a ha => h a (List.mem_cons_of_mem _ ha)
    cases rest with
    | nil => simpa [Body.render, bodyTokens] using hf
    | cons second others =>
      have hb := (hf.append bar).append hr
      simpa [Body.render, bodyTokens, List.intercalate_cons_cons] using hb

end Prints

/-- The line of a rule without its line end. -/
def ruleLine (r : Rule) : List Char := [r.head, ' ', '=', ' '] ++ Body.render r.body

variable {r : Rule}

theorem prints_ruleLine (h : r.Printable) : Prints (ruleLine r) r.tokens := by
  have he : Prints [' ', '=', ' '] [.equals] := ⟨rfl, by decide, by decide⟩
  exact ((Prints.nonterminal h.head_upper).append he).append (Prints.body h.writable)

theorem read_ruleLine (h : r.Printable) : Rule.read (ruleLine r) = .ok r :=
  read_eq_ok_iff.mpr ⟨(prints_ruleLine h).lex_eq, h.stated⟩

theorem statesRule_ruleLine (h : r.head.isUpper = true) : statesRule (ruleLine r) = true := by
  have hb := isBlank_eq_false_of_isUpper h
  have hc : r.head ≠ ';' := by
    intro he
    rw [he] at h
    cases h
  simp [statesRule, ruleLine, Text.dropBlanks, hb, hc]

end RuleFile

end CharGrammar
