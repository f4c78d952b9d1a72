import CharGrammar.Proofs.Readings
import CharGrammar.Proofs.Relocation

namespace CharGrammar

open Text

/-- A place in a text once a line has been added after its first `n` lines. -/
def Location.withLineAdded (n : Nat) (l : Location) : Location :=
  if n < l.line then { l with line := l.line + 1 } else l

theorem Location.withLineAdded_of_le {file : String} {m n : Nat} (h : m ≤ n) :
    (Location.inFile file m).withLineAdded n = .inFile file m :=
  if_neg (Nat.not_lt.mpr h)

theorem Location.withLineAdded_of_lt {file : String} {m n : Nat} (h : n < m) :
    (Location.inFile file m).withLineAdded n = .inFile file (m + 1) :=
  if_pos h

namespace RuleFile

variable {c : Char} {line line' front back before : List Char} {file : String} {n : Nat}

/-- A line that is there for the reader only: blanks, and perhaps a comment after them. -/
inductive Remark : List Char → Prop
  | blank {line : List Char} (blanks : ∀ c ∈ line, isBlank c = true) : Remark line
  | comment {front rest : List Char} (blanks : ∀ c ∈ front, isBlank c = true) :
      Remark (front ++ ';' :: rest)

/-- Puts a return before each line end that has none. The flag tells whether a return came just
before the text. -/
def withReturns (returned : Bool) : List Char → List Char
  | [] => []
  | c :: rest =>
    if c = '\n' then
      if returned then '\n' :: withReturns false rest else '\r' :: '\n' :: withReturns false rest
    else c :: withReturns (c = '\r') rest

section Statements

/-- The first character that is not blank decides whether a line states a rule. -/
theorem statesRule_eq : statesRule line = (line.find? (!isBlank ·)).any (· ≠ ';') := by
  induction line with
  | nil => rfl
  | cons c rest ih =>
    rw [List.find?_cons]
    cases hb : isBlank c with
    | true =>
      have hd : dropBlanks (c :: rest) = dropBlanks rest := by simp [dropBlanks, hb]
      rw [statesRule, hd]
      exact ih
    | false =>
      have hd : dropBlanks (c :: rest) = c :: rest := by simp [dropBlanks, hb]
      rw [statesRule, hd]
      rfl

theorem statesRule_insert (hb : isBlank c = true) :
    statesRule (front ++ c :: back) = statesRule (front ++ back) := by
  rw [statesRule_eq, statesRule_eq, List.find?_append, List.find?_append,
    List.find?_cons_of_neg (by simp [hb])]

theorem statesRule_dropReturn : statesRule (dropReturn '\r' line) = statesRule line := by
  unfold dropReturn
  split
  · next h =>
    obtain ⟨front, rfl⟩ := List.getLast?_eq_some_iff.mp h
    rw [List.dropLast_concat, statesRule_insert rfl, List.append_nil]
  · rfl

theorem statesRule_of_remark (h : Remark line) : statesRule line = false := by
  rw [statesRule_eq]
  cases h with
  | blank blanks =>
    have hn : line.find? (!isBlank ·) = none := List.find?_eq_none.mpr (by simpa using blanks)
    rw [hn]
    rfl
  | @comment front rest blanks =>
    have hn : front.find? (!isBlank ·) = none := List.find?_eq_none.mpr (by simpa using blanks)
    rw [List.find?_append, hn]
    rfl

end Statements

/-- Lines that state the same rule, have the same fault, or are both for the reader only. -/
structure ReadsAlike (line line' : List Char) : Prop where
  states : statesRule line = statesRule line'
  read : Rule.read line = Rule.read line'

namespace ReadsAlike

theorem symm (h : ReadsAlike line line') : ReadsAlike line' line :=
  ⟨h.states.symm, h.read.symm⟩

theorem trans {line'' : List Char} (h : ReadsAlike line line') (h' : ReadsAlike line' line'') :
    ReadsAlike line line'' :=
  ⟨h.states.trans h'.states, h.read.trans h'.read⟩

theorem readLine?_eq (h : ReadsAlike line line') :
    readLine? file n (some line) = readLine? file n (some line') := by
  simp only [readLine?, h.states, h.read]

end ReadsAlike

theorem ne_of_isBlank {d : Char} (hb : isBlank c = true) (hd : isBlank d = false) : c ≠ d := by
  intro he
  rw [he, hd] at hb
  cases hb

theorem ofChar?_of_isBlank (hb : isBlank c = true) : Token.ofChar? c = none := by
  rw [Token.ofChar?, if_neg (ne_of_isBlank hb rfl), if_neg (ne_of_isBlank hb rfl), if_pos hb]

/-- Outside quotes a blank is no token. -/
theorem lex_insert (hb : isBlank c = true) (he : front.count '"' % 2 = 0) :
    Token.lex (front ++ c :: back) = Token.lex (front ++ back) := by
  have hq : c ≠ '"' := ne_of_isBlank hb rfl
  rw [Token.lex, Token.lex, Token.lexFrom_eq, Token.lexFrom_eq, Token.openAfter_append,
    Token.openAfter_append, Token.reading_append, Token.reading_append,
    Token.openAfter_of_even he, Token.openAfter_cons hq, Token.reading_cons hq,
    ofChar?_of_isBlank hb]
  rfl

theorem readsAlike_insert (hb : isBlank c = true) (he : front.count '"' % 2 = 0) :
    ReadsAlike (front ++ c :: back) (front ++ back) :=
  ⟨statesRule_insert hb, by rw [Rule.read, Rule.read, lex_insert hb he]⟩

theorem count_insert (hb : isBlank c = true) :
    (front ++ c :: back).count '"' = (front ++ back).count '"' := by
  rw [List.count_append, List.count_append, List.count_cons_of_ne (ne_of_isBlank hb rfl)]

/-- Where no quote is open at its end, the return that closes a line is a blank like others. -/
theorem readsAlike_dropReturn (he : line.count '"' % 2 = 0) :
    ReadsAlike (dropReturn '\r' line) line := by
  unfold dropReturn
  split
  · next h =>
    obtain ⟨front, rfl⟩ := List.getLast?_eq_some_iff.mp h
    have hfront : front.count '"' % 2 = 0 := by
      rwa [count_insert rfl, List.append_nil] at he
    have ha : ReadsAlike (front ++ ['\r']) (front ++ []) := readsAlike_insert rfl hfront
    rw [List.append_nil] at ha
    rw [List.dropLast_concat]
    exact ha.symm
  · exact ⟨rfl, rfl⟩

/-- A blank that is put before the line end may itself be the return that closes the line. -/
theorem readsAlike_insert_dropReturn (hb : isBlank c = true) (he : front.count '"' % 2 = 0) :
    ReadsAlike (dropReturn '\r' (front ++ c :: back)) (dropReturn '\r' (front ++ back)) := by
  cases back with
  | nil =>
    have hc : (front ++ [c]).count '"' % 2 = 0 := by rwa [count_insert hb, List.append_nil]
    have hi : ReadsAlike (front ++ [c]) (front ++ []) := readsAlike_insert hb he
    rw [List.append_nil] at hi ⊢
    exact (readsAlike_dropReturn hc).trans (hi.trans (readsAlike_dropReturn he).symm)
  | cons d rest =>
    rw [List.append_cons, dropReturn_append (List.cons_ne_nil d rest),
      dropReturn_append (List.cons_ne_nil d rest), ← List.append_cons]
    exact readsAlike_insert hb he

section Answers

/-- A blank more in a line changes no reading, and alone it is no rule. -/
theorem readFrom_insert (hn : '\n' ∉ front) (he : front.count '"' % 2 = 0) (hb : isBlank c = true)
    (hc : c ≠ '\n') :
    readFrom file n ((textLines (front ++ c :: back)).map some) =
      readFrom file n ((textLines (front ++ back)).map some) := by
  have hfront : '\n' ∉ front ++ [c] := by simp [hn, hc.symm]
  by_cases hm : '\n' ∈ back
  · obtain ⟨rest, later, rfl, hrest⟩ := List.eq_append_cons_of_mem hm
    have hline : '\n' ∉ front ++ rest := by simp [hn, hrest]
    have hline' : '\n' ∉ front ++ c :: rest := by simp [hn, hrest, hc.symm]
    rw [textLines, textLines, ← List.cons_append, ← List.append_assoc, ← List.append_assoc,
      lines_line_append hline, lines_line_append hline', List.map_cons, List.map_cons,
      readFrom_cons, readFrom_cons, (readsAlike_insert_dropReturn hb he).readLine?_eq]
  · have hline : '\n' ∉ front ++ back := by simp [hn, hm]
    have hline' : '\n' ∉ front ++ c :: back := by simp [hn, hm, hc.symm]
    have ha : ReadsAlike (front ++ c :: back) (front ++ back) := readsAlike_insert hb he
    rw [textLines, textLines, lines_of_not_mem hline, lines_of_not_mem hline', if_neg (by simp),
      List.map_singleton, readFrom_cons, ha.readLine?_eq]
    split
    · next hnil =>
      rw [hnil]
      rfl
    · rw [List.map_singleton, readFrom_cons]

theorem readLines_insert (hs : AtLineStart '\n' before) (hn : '\n' ∉ front)
    (he : front.count '"' % 2 = 0) (hb : isBlank c = true) (hc : c ≠ '\n') :
    readLines file ((textLines (before ++ (front ++ c :: back))).map some) =
      readLines file ((textLines (before ++ (front ++ back))).map some) := by
  rw [textLines, textLines, lines_append hs, lines_append hs, List.map_append, List.map_append,
    readLines_eq, readLines_eq, readFrom_append, readFrom_append]
  congr 1
  exact readFrom_insert hn he hb hc

/-- A line more that states nothing only moves the lines after it. -/
theorem readLines_insert_line (hs : AtLineStart '\n' front) (hn : '\n' ∉ line)
    (hr : statesRule line = false) :
    readLines "" ((textLines (front ++ (line ++ '\n' :: back))).map some) =
      (readLines "" ((textLines (front ++ back)).map some)).map
        (moveReading (.withLineAdded (front.count '\n'))) := by
  let above := (textLines front).map some
  let below := (textLines back).map some
  have hk : above.length = front.count '\n' := by
    rw [List.length_map, textLines, length_lines hs]
  rw [← hk]
  let f : Location → Location := .withLineAdded above.length
  have h0 : f (.inFile "" 0) = .inFile "" 0 := Location.withLineAdded_of_le (Nat.zero_le _)
  have habove : readFrom "" 1 above = (readFrom "" 1 above).map (moveReading f) := by
    apply readFrom_move h0
    intro i hi
    exact Location.withLineAdded_of_le (by omega)
  have hbelow : readFrom "" (1 + above.length + 1) below =
      (readFrom "" (1 + above.length) below).map (moveReading f) := by
    apply readFrom_move h0
    intro i _
    rw [Nat.add_right_comm (1 + above.length) 1]
    exact Location.withLineAdded_of_lt (by omega)
  have hline : readLine? "" (1 + above.length) (some (dropReturn '\r' line)) = none := by
    rw [readLine?, statesRule_dropReturn, hr]
    rfl
  rw [textLines, textLines, lines_append hs, lines_append hs, lines_line_append hn,
    List.map_append, List.map_append, List.map_cons, readLines_eq, readLines_eq, readFrom_append,
    readFrom_append, readFrom_cons, List.map_append]
  change readFrom "" 1 above ++ ((readLine? "" (1 + above.length) _).toList ++
    readFrom "" (1 + above.length + 1) below) = _
  rw [hline, hbelow, Option.toList_none, List.nil_append]
  exact congrArg (· ++ _) habove

end Answers

section Returns

variable {returned : Bool}

theorem withReturns_of_not_mem (h : '\n' ∉ line) : withReturns returned line = line := by
  induction line generalizing returned with
  | nil => rfl
  | cons c rest ih =>
    simp only [List.mem_cons, not_or] at h
    rw [withReturns, if_neg (Ne.symm h.1), ih h.2]

/-- The return that a line gets if it ends in none. -/
def addedReturn (returned : Bool) (line : List Char) : List Char :=
  if (line.getLast?.map fun c => decide (c = '\r')).getD returned then [] else ['\r']

theorem withReturns_line (h : '\n' ∉ line) :
    withReturns returned (line ++ '\n' :: back) =
      line ++ addedReturn returned line ++ '\n' :: withReturns false back := by
  induction line generalizing returned with
  | nil => cases returned <;> rfl
  | cons c rest ih =>
    simp only [List.mem_cons, not_or] at h
    have hadded : addedReturn (c = '\r') rest = addedReturn returned (c :: rest) := by
      rw [addedReturn, addedReturn, List.getLast?_cons]
      cases rest.getLast? <;> rfl
    rw [List.cons_append, withReturns, if_neg (Ne.symm h.1), ih h.2, hadded]
    rfl

theorem dropReturn_addedReturn :
    dropReturn '\r' (line ++ addedReturn false line) = dropReturn '\r' line := by
  by_cases h : line.getLast? = some '\r'
  · have ha : addedReturn false line = [] := by simp [addedReturn, h]
    rw [ha, List.append_nil]
  · have ha : addedReturn false line = ['\r'] := by
      cases hl : line.getLast? with
      | none => simp [addedReturn, hl]
      | some d =>
        have hd : d ≠ '\r' := fun he => h (he ▸ hl)
        simp [addedReturn, hl, hd]
    have hdrop : dropReturn '\r' line = line := if_neg h
    rw [ha, hdrop, dropReturn_append (List.cons_ne_nil _ _)]
    exact List.append_nil line

/-- A return before a line end is no part of the line, whether or not it was there. -/
theorem textLines_withReturns (text : List Char) :
    textLines (withReturns false text) = textLines text := by
  induction text using line_induction '\n' with
  | last line hline => rw [withReturns_of_not_mem hline]
  | next line rest hline ih =>
    have hadded : '\n' ∉ line ++ addedReturn false line := by
      unfold addedReturn
      split <;> simp [hline]
    rw [withReturns_line hline, textLines, textLines, lines_line_append hadded,
      lines_line_append hline, dropReturn_addedReturn, ← textLines, ← textLines, ih]

end Returns

/-- Layout outside quotes does not matter. A blank in a line where no quote is open changes
nothing. A line with no rule in it, put between others, only moves the faults of lines after it.
Returns before line ends change nothing. -/
theorem parse_keeps_layout :
    (∀ (before front back : String) (c : Char), AtLineStart '\n' before.toList →
      '\n' ∉ front.toList → front.toList.count '"' % 2 = 0 → isBlank c = true → c ≠ '\n' →
      parse (before ++ front ++ String.singleton c ++ back) = parse (before ++ front ++ back)) ∧
    (∀ front line back : String, AtLineStart '\n' front.toList → '\n' ∉ line.toList →
      Remark line.toList →
      parse (front ++ line ++ "\n" ++ back) =
        moved (.withLineAdded (front.toList.count '\n')) (parse (front ++ back))) ∧
    ∀ text : String, parse (String.ofList (withReturns false text.toList)) = parse text := by
  refine ⟨?_, ?_, ?_⟩
  · intro before front back c hs hn he hb hc
    have ht : (before ++ front ++ String.singleton c ++ back).toList =
        before.toList ++ (front.toList ++ c :: back.toList) := by simp
    have ht' : (before ++ front ++ back).toList =
        before.toList ++ (front.toList ++ back.toList) := by simp
    rw [parse, parse, ht, ht', ofLines, ofLines, readLines_insert hs hn he hb hc]
  · intro front line back hs hn hr
    have ht : (front ++ line ++ "\n" ++ back).toList =
        front.toList ++ (line.toList ++ '\n' :: back.toList) := by simp
    rw [parse, parse, ht, String.toList_append]
    exact ofLines_move (Location.withLineAdded_of_le (Nat.zero_le _))
      (readLines_insert_line hs hn (statesRule_of_remark hr))
  · intro text
    rw [parse, parse, String.toList_ofList, textLines_withReturns]

theorem remark_moves_fault :
    parse ("S = a\n" ++ "A = \"|\"" ++ String.singleton '\r' ++ "\nB = \"b") =
      parse ("S = a\n" ++ "A = \"|\"" ++ "\nB = \"b") ∧
    parse ("S = a\n" ++ " ; \"" ++ "\n" ++ "B = \"b\n") =
      .error [⟨.inText 3 0, .unclosedQuote⟩] := by
  constructor
  · exact parse_keeps_layout.1 _ _ _ _ (.inr (by decide)) (by decide) (by decide) (by decide)
      (by decide)
  · have hl : " ; \"".toList = [' '] ++ ';' :: [' ', '"'] := by decide
    have hr : Remark " ; \"".toList := hl ▸ .comment (List.forall_mem_singleton.mpr rfl)
    have hp : parse ("S = a\n" ++ "B = \"b\n") = .error [⟨.inText 2 0, .unclosedQuote⟩] := by
      decide +kernel
    rw [parse_keeps_layout.2.1 "S = a\n" " ; \"" "B = \"b\n" (.inr (by decide)) (by decide) hr, hp]
    decide

end RuleFile

end CharGrammar
