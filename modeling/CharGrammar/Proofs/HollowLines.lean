import CharGrammar.Proofs.Answers
import CharGrammar.Proofs.Layout

namespace CharGrammar.RuleFile

open Text (isBlank)

/-- A line of nothing but blanks and pairs of quotes with nothing between them. -/
inductive Hollow : List Char → Prop
  | nil : Hollow []
  | blank {c : Char} {rest : List Char} (blank : isBlank c = true) (hollow : Hollow rest) :
      Hollow (c :: rest)
  | quotes {rest : List Char} (hollow : Hollow rest) : Hollow ('"' :: '"' :: rest)

/-- Faults of the reader, never of the text that it reads. -/
inductive Internal : RuleFault → Prop
  | strayBar : Internal .strayBar
  | blankRule : Internal .blankRule

/-- A text is answered with the fault, and perhaps with others. -/
def Tells (text : String) (fault : Located RuleFault) : Prop :=
  ∃ faults, parse text = .error faults ∧ fault ∈ faults

variable {line : List Char} {tokens : List Token} {fault : RuleFault}

theorem Token.ofChar?_eq_none_iff {c : Char} : ofChar? c = none ↔ isBlank c = true := by
  refine ⟨?_, ofChar?_of_isBlank⟩
  intro h
  unfold ofChar? at h
  split at h
  · cases h
  · split at h
    · cases h
    · split at h
      · assumption
      · split at h <;> cases h

/-- A quote that is open before the line is closed at its very beginning. -/
theorem Hollow.of_reading {quoted : Bool} (ho : Token.openAfter quoted line = false)
    (hr : Token.reading quoted line = []) : Hollow (if quoted then '"' :: line else line) := by
  induction line generalizing quoted with
  | nil =>
    cases quoted with
    | true => cases ho
    | false => exact .nil
  | cons c rest ih =>
    by_cases hc : c = '"'
    · subst hc
      rw [Token.openAfter_quote] at ho
      rw [Token.reading_quote] at hr
      have hi := ih ho hr
      cases quoted with
      | true => exact .quotes hi
      | false => exact hi
    · rw [Token.openAfter_cons hc] at ho
      rw [Token.reading_cons hc] at hr
      obtain ⟨hfirst, hrest⟩ := List.append_eq_nil_iff.mp hr
      cases quoted with
      | true => cases hfirst
      | false =>
        have hb := Token.ofChar?_eq_none_iff.mp (Option.toList_eq_nil_iff.mp hfirst)
        exact .blank hb (ih ho hrest)

theorem lex_eq_nil_iff : Token.lex line = .ok [] ↔ Hollow line := by
  constructor
  · intro h
    obtain ⟨ho, hr⟩ := Token.lex_eq_ok_iff.mp h
    exact Hollow.of_reading ho hr
  · intro h
    induction h with
    | nil => rfl
    | @blank c rest hb _ ih =>
      have hi : Token.lex ([] ++ c :: rest) = Token.lex ([] ++ rest) := lex_insert hb rfl
      exact hi.trans ih
    | quotes _ ih => exact ih

/-- Between bars only the writer can be at fault, since the bars themselves are gone. -/
theorem not_internal_of_readBody (h : readBody tokens = .error fault) : ¬ Internal fault := by
  intro hi
  rcases readBody_error_cases h with rfl | ⟨piece, hp, token, ht, hs⟩
  · cases hi
  · cases token with
    | equals =>
      cases hs
      cases hi
    | bar => exact absurd ht (Text.not_mem_of_mem_splitOn hp)
    | symbol s => cases hs

theorem eq_nil_of_ofTokens (h : Rule.ofTokens tokens = .error fault) (hi : Internal fault) :
    fault = .blankRule ∧ tokens = [] := by
  rcases ofTokens_error_cases h with ⟨ht, he⟩ | rfl | rfl | ⟨rest, hr⟩
  · exact ⟨he, ht⟩
  · cases hi
  · cases hi
  · exact absurd hi (not_internal_of_readBody hr)

theorem Hollow.of_read (h : Rule.read line = .error fault) (hi : Internal fault) :
    fault = .blankRule ∧ Hollow line := by
  rcases read_error_cases h with rfl | ⟨tokens, hl, ht⟩
  · cases hi
  · obtain ⟨he, rfl⟩ := eq_nil_of_ofTokens ht hi
    exact ⟨he, lex_eq_nil_iff.mp hl⟩

theorem read_of_hollow (h : Hollow line) : Rule.read line = .error .blankRule := by
  rw [Rule.read, lex_eq_nil_iff.mpr h]
  rfl

theorem exists_hollow_of_tells {text : String} {location : Location}
    (h : Tells text ⟨location, fault⟩) (hi : Internal fault) :
    fault = .blankRule ∧
      ∃ line ∈ ruleLines text.toList, Hollow line.1 ∧ location = .inText line.2 0 := by
  obtain ⟨faults, hp, hf⟩ := h
  have ha := answered_parse text
  rw [hp] at ha
  rcases ha.fault_cases hf with ⟨line, hl, hread, hplace⟩ | he | ⟨c, he⟩ | ⟨c, he⟩
  · obtain ⟨he, hollow⟩ := Hollow.of_read hread hi
    exact ⟨he, line, (List.mem_filter.mp hl).1, hollow, hplace⟩
  all_goals
    cases he
    cases hi

theorem tells_of_malformed {text : String} {n : Nat} (hl : (line, n) ∈ ruleLines text.toList)
    (hr : Rule.read line = .error fault) : Tells text ⟨.inText n 0, fault⟩ := by
  have hm : (line, n) ∈ malformedLines text.toList := by
    refine List.mem_filter.mpr ⟨hl, ?_⟩
    rw [hr]
    rfl
  obtain ⟨faults, hp, hb⟩ := parse_of_malformed (List.ne_nil_of_mem hm)
  obtain ⟨⟨location, item⟩, hf, hread, hplace⟩ := exists_fault hb hm
  rw [hr] at hread
  cases hread
  cases hplace
  exact ⟨faults, hp, hf⟩

/-- No text is told that a bar was left inside an alternative. But its hollow rule lines, and no
others, are told to be blank. -/
theorem tells_internal (text : String) (location : Location) :
    ¬ Tells text ⟨location, .strayBar⟩ ∧
      (Tells text ⟨location, .blankRule⟩ ↔
        ∃ line ∈ ruleLines text.toList, Hollow line.1 ∧ location = .inText line.2 0) := by
  refine ⟨?_, ?_, ?_⟩
  · intro h
    obtain ⟨he, _⟩ := exists_hollow_of_tells h .strayBar
    cases he
  · intro h
    exact (exists_hollow_of_tells h .blankRule).2
  · intro h
    obtain ⟨line, hl, hollow, rfl⟩ := h
    exact tells_of_malformed hl (read_of_hollow hollow)

/-- A pair of quotes alone on a line is such a rule line. -/
theorem empty_quotes_tell_internal :
    ¬ ∀ (text : String) (fault : Located RuleFault), Tells text fault → ¬ Internal fault.item := by
  intro h
  have hp : parse "\"\"\n" = .error [⟨.inText 1 0, .blankRule⟩] := by decide +kernel
  exact h "\"\"\n" _ ⟨_, hp, List.mem_singleton_self _⟩ .blankRule

end CharGrammar.RuleFile
