import CharGrammar.Proofs.Layout

namespace CharGrammar.RuleFile.Token

open Text (isBlank)

variable {c : Char} {piece rest : List Char} {n : Nat}

/-- What a character that is not blank stands for outside quotes. -/
def ofSolid (c : Char) : Token :=
  if c = '=' then .equals
  else if c = '|' then .bar
  else if c.isUpper then .symbol (.nonterminal c)
  else .symbol (.terminal c)

/-- The tokens of a piece by itself, outside quotes or inside. -/
def ofPiece (quoted : Bool) (piece : List Char) : List Token :=
  if quoted then piece.map fun c => .symbol (.terminal c)
  else (piece.filter fun c => !isBlank c).map ofSolid

/-- The tokens of a line cut at its quotes, where the pieces with an odd number are quoted. -/
def ofPieces (line : List Char) : List Token :=
  (line.splitOn '"').zipIdx.flatMap fun (piece, number) => ofPiece (number % 2 = 1) piece

theorem ofChar?_eq_ofSolid (h : isBlank c = false) : ofChar? c = some (ofSolid c) := by
  simp only [ofChar?, ofSolid, h, Bool.false_eq_true, if_false, apply_ite some]

theorem ofPiece_cons {quoted : Bool} :
    ofPiece quoted (c :: piece) =
      (if quoted then [.symbol (.terminal c)] else (ofChar? c).toList) ++ ofPiece quoted piece := by
  cases quoted with
  | true => rfl
  | false =>
    cases hb : isBlank c with
    | true => simp [ofPiece, hb, ofChar?_of_isBlank hb]
    | false => simp [ofPiece, hb, ofChar?_eq_ofSolid hb]

/-- A quote ends one piece and begins the next, which is read the other way. -/
theorem reading_eq_flatMap {line : List Char} :
    reading (n % 2 = 1) line =
      ((line.splitOn '"').zipIdx n).flatMap fun (piece, number) =>
        ofPiece (number % 2 = 1) piece := by
  induction line generalizing n with
  | nil => simp [reading, ofPiece]
  | cons c rest ih =>
    by_cases hc : c = '"'
    · subst hc
      have hturn : (!decide (n % 2 = 1)) = decide ((n + 1) % 2 = 1) := by
        rw [← decide_not, decide_eq_decide]
        omega
      simp [List.splitOn_cons_eq_if_modifyHead, reading_quote, hturn, ih, ofPiece]
    · obtain ⟨first, others, hp⟩ := List.exists_cons_of_ne_nil (List.splitOn_ne_nil '"' rest)
      have hsep : ¬ (c == '"') = true := by simpa using hc
      rw [List.splitOn_cons_eq_if_modifyHead, reading_cons hc, ih, if_neg hsep, hp,
        List.modifyHead_cons]
      simp only [List.zipIdx_cons, List.flatMap_cons, ofPiece_cons, List.append_assoc]

/-- A line is refused exactly if its quotes are odd in number, wherever they are. Otherwise it is
cut at its quotes, and its tokens are those of the pieces in order. -/
theorem lex_eq_ofPieces (line : List Char) :
    lex line =
      if line.count '"' % 2 = 1 then .error .unclosedQuote else .ok (ofPieces line) := by
  have ho : openAfter false line = true ↔ line.count '"' % 2 = 1 := by
    rw [openAfter_iff, Bool.toNat_false, Nat.zero_add]
  have hr : reading false line = ofPieces line := reading_eq_flatMap (n := 0)
  simp only [lex, lexFrom_eq, hr, ho]

end CharGrammar.RuleFile.Token
