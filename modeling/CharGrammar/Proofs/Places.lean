import Mathlib.Data.List.DropRight
import CharGrammar.Scan

namespace CharGrammar.Scan

open Text (isBlank)

/-- The line, counted from 1, on which a text goes on after these characters. -/
def lineAfter (front : List Char) : Nat := 1 + front.count '\n'

/-- The column, counted from 1, at which a text goes on after these characters. -/
def columnAfter (front : List Char) : Nat := 1 + (front.rtakeWhile (· ≠ '\n')).length

/-- The token of a character that comes after these. -/
def tokenAfter (front : List Char) (c : Char) : Token :=
  ⟨.terminal c, String.singleton c, lineAfter front, columnAfter front⟩

def endingAfter (front : List Char) : Token := ⟨.ending, "", lineAfter front, columnAfter front⟩

/-- The tokens of a text whose characters are all known, each by what comes before its index. -/
def placed (text : List Char) : List Token :=
  (text.zipIdx.filter fun (c, _) => !isBlank c).map (fun (c, i) => tokenAfter (text.take i) c) ++
    [endingAfter text]

def strayAfter (front : List Char) (c : Char) : Located Fault :=
  ⟨⟨"", lineAfter front, columnAfter front⟩, .unexpected c⟩

/-- Neither blank nor in the alphabet. -/
def Stray (alphabet : CharSet) (c : Char) : Prop := isBlank c = false ∧ c ∉ alphabet

instance (alphabet : CharSet) (c : Char) : Decidable (Stray alphabet c) :=
  inferInstanceAs (Decidable (_ ∧ _))

/-- The scan of a text that goes on after these characters. -/
def scanAfter (alphabet : CharSet) (front rest : List Char) : Except (Located Fault) (List Token) :=
  tokensFrom alphabet (lineAfter front) (columnAfter front) rest

variable {alphabet : CharSet} {front rest : List Char} {c : Char}

theorem lineAfter_concat :
    lineAfter (front ++ [c]) = if c = '\n' then lineAfter front + 1 else lineAfter front := by
  unfold lineAfter
  rw [List.count_append, List.count_singleton]
  split <;> simp_all [Nat.add_assoc]

theorem columnAfter_concat :
    columnAfter (front ++ [c]) = if c = '\n' then 1 else columnAfter front + 1 := by
  unfold columnAfter
  rw [List.rtakeWhile_concat]
  split <;> simp_all [Nat.add_assoc]

theorem not_stray_iff : ¬ Stray alphabet c ↔ (isBlank c = false → c ∈ alphabet) := by
  rw [Stray, not_and, Decidable.not_not]

/-- After one more character the line and the column are again those of all that was passed. -/
theorem scanAfter_cons :
    scanAfter alphabet front (c :: rest) =
      if isBlank c then scanAfter alphabet (front ++ [c]) rest
      else if c ∈ alphabet then
        (scanAfter alphabet (front ++ [c]) rest).map (tokenAfter front c :: ·)
      else .error (strayAfter front c) := by
  unfold scanAfter
  rw [tokensFrom, lineAfter_concat, columnAfter_concat]
  by_cases hn : c = '\n'
  · -- A line end is a blank too, and differs from the others only in the place after it.
    subst hn
    rfl
  · simp only [hn, ↓reduceIte]
    rfl

/-- A scan does not stop at a character that is no stray. -/
theorem scanAfter_cons_of_not_stray (h : ¬ Stray alphabet c) :
    scanAfter alphabet front (c :: rest) = (scanAfter alphabet (front ++ [c]) rest).map fun found =>
      if isBlank c then found else tokenAfter front c :: found := by
  rw [scanAfter_cons]
  by_cases hb : isBlank c = true
  · simp only [hb, ↓reduceIte]
    cases scanAfter alphabet (front ++ [c]) rest <;> rfl
  · simp [hb, not_stray_iff.mp h (eq_false_of_ne_true hb)]

theorem scanAfter_of_no_stray (h : ∀ c ∈ rest, ¬ Stray alphabet c) :
    scanAfter alphabet front rest = .ok
      (((rest.zipIdx front.length).filter fun (c, _) => !isBlank c).map
        (fun (c, i) => tokenAfter ((front ++ rest).take i) c) ++
          [endingAfter (front ++ rest)]) := by
  induction rest generalizing front with
  | nil => simp [scanAfter, tokensFrom, endingAfter]
  | cons c rest ih =>
    obtain ⟨hc, hrest⟩ := List.forall_mem_cons.mp h
    have hpassed : scanAfter alphabet (front ++ [c]) rest = _ := ih hrest
    rw [List.append_assoc, List.singleton_append, List.length_append, List.length_singleton]
      at hpassed
    rw [scanAfter_cons_of_not_stray hc, hpassed, Except.map, List.zipIdx_cons]
    by_cases hb : isBlank c = true <;> simp [hb]

theorem scanAfter_of_stray {earlier later : List Char} (h : ∀ d ∈ earlier, ¬ Stray alphabet d)
    (hc : Stray alphabet c) :
    scanAfter alphabet front (earlier ++ c :: later) =
      .error (strayAfter (front ++ earlier) c) := by
  induction earlier generalizing front with
  | nil => simp [scanAfter_cons, hc.1, hc.2]
  | cons d earlier ih =>
    obtain ⟨hd, hearlier⟩ := List.forall_mem_cons.mp h
    rw [List.cons_append, scanAfter_cons_of_not_stray hd, ih hearlier, List.append_assoc]
    rfl

variable {text : List Char}

theorem tokens_eq_scanAfter : tokens alphabet text = scanAfter alphabet [] text := rfl

theorem tokens_of_no_stray (h : ∀ c ∈ text, ¬ Stray alphabet c) :
    tokens alphabet text = .ok (placed text) := by
  rw [tokens_eq_scanAfter, scanAfter_of_no_stray h]
  rfl

theorem tokens_of_stray {later : List Char} (h : ∀ d ∈ front, ¬ Stray alphabet d)
    (hc : Stray alphabet c) :
    tokens alphabet (front ++ c :: later) = .error (strayAfter front c) := by
  rw [tokens_eq_scanAfter, scanAfter_of_stray h hc, List.nil_append]

/-- A scan goes through the whole text, or up to its first stray. -/
theorem tokens_cases (alphabet : CharSet) (text : List Char) :
    (∀ c ∈ text, ¬ Stray alphabet c) ∧ tokens alphabet text = .ok (placed text) ∨
      ∃ front c later, text = front ++ c :: later ∧ (∀ d ∈ front, ¬ Stray alphabet d) ∧
        Stray alphabet c ∧ tokens alphabet text = .error (strayAfter front c) := by
  cases hf : text.find? (Stray alphabet ·) with
  | none =>
    have hn : ∀ c ∈ text, ¬ Stray alphabet c := by simpa using hf
    exact .inl ⟨hn, tokens_of_no_stray hn⟩
  | some c =>
    obtain ⟨hc, front, later, rfl, hfront⟩ := List.find?_eq_some_iff_append.mp hf
    have hstray : Stray alphabet c := of_decide_eq_true hc
    have hn : ∀ d ∈ front, ¬ Stray alphabet d := by simpa using hfront
    exact .inr ⟨front, c, later, rfl, hn, hstray, tokens_of_stray hn hstray⟩

theorem tokens_eq_ok_iff {found : List Token} :
    tokens alphabet text = .ok found ↔
      (∀ c ∈ text, ¬ Stray alphabet c) ∧ found = placed text := by
  refine ⟨?_, ?_⟩
  · intro h
    rcases tokens_cases alphabet text with ⟨hn, ht⟩ | ⟨front, c, later, _, _, _, ht⟩
    · rw [ht] at h
      exact ⟨hn, (Except.ok.inj h).symm⟩
    · rw [ht] at h
      cases h
  · rintro ⟨hn, rfl⟩
    exact tokens_of_no_stray hn

theorem tokens_eq_error_iff {fault : Located Fault} :
    tokens alphabet text = .error fault ↔
      ∃ front c later, text = front ++ c :: later ∧ (∀ d ∈ front, ¬ Stray alphabet d) ∧
        Stray alphabet c ∧ fault = strayAfter front c := by
  refine ⟨?_, ?_⟩
  · intro h
    rcases tokens_cases alphabet text with ⟨_, ht⟩ | ⟨front, c, later, hs, hn, hc, ht⟩
    · rw [ht] at h
      cases h
    · rw [ht] at h
      exact ⟨front, c, later, hs, hn, hc, (Except.error.inj h).symm⟩
  · rintro ⟨front, c, later, rfl, hn, hc, rfl⟩
    exact tokens_of_stray hn hc

theorem isBlank_eq_false_of_mem_placed {t : Token} (ht : t ∈ placed text)
    (hk : t.kind = .terminal c) : isBlank c = false := by
  rcases List.mem_append.mp ht with ht | ht
  · obtain ⟨⟨d, i⟩, hd, rfl⟩ := List.mem_map.mp ht
    cases hk
    simpa using (List.mem_filter.mp hd).2
  · rw [List.mem_singleton.mp ht] at hk
    cases hk

/-- A text is cut into tokens exactly if its characters that are not blank are in the alphabet.
There is one for each of these, at the line and the column of its index, and then one for the end.
Otherwise the first such character that the alphabet does not have is told of, at its place. Blanks
are never tokens, even if the alphabet has them. -/
theorem tokens_placed (alphabet : CharSet) (text : List Char) :
    (∀ found, tokens alphabet text = .ok found ↔
      (∀ c ∈ text, isBlank c = false → c ∈ alphabet) ∧ found = placed text) ∧
    (∀ fault, tokens alphabet text = .error fault ↔
      ∃ front c later, text = front ++ c :: later ∧
        (∀ d ∈ front, isBlank d = false → d ∈ alphabet) ∧ isBlank c = false ∧ c ∉ alphabet ∧
        fault = ⟨⟨"", lineAfter front, columnAfter front⟩, .unexpected c⟩) ∧
    ∀ found, tokens alphabet text = .ok found →
      ∀ t ∈ found, ∀ c, t.kind = .terminal c → isBlank c = false := by
  simp only [← not_stray_iff]
  refine ⟨fun found => tokens_eq_ok_iff, ?_, ?_⟩
  · intro fault
    rw [tokens_eq_error_iff]
    simp only [Stray, strayAfter, and_assoc]
  · intro found hf t ht c hk
    rw [(tokens_eq_ok_iff.mp hf).2] at ht
    exact isBlank_eq_false_of_mem_placed ht hk

def scattered : List Char := ['d', ' ', '\r', '\n', '\u2028', 'a']

/-- A return and a line separator take up a column each, and only a line end begins a line. -/
theorem scattered_tokens_placed :
    tokens (.ofList ['d', 'a', ' ']) scattered =
      .ok [⟨.terminal 'd', "d", 1, 1⟩, ⟨.terminal 'a', "a", 2, 2⟩, ⟨.ending, "", 2, 3⟩] ∧
    tokens (.ofList ['d', ' ']) scattered = .error ⟨⟨"", 2, 2⟩, .unexpected 'a'⟩ := by
  obtain ⟨hok, _⟩ := tokens_placed (.ofList ['d', 'a', ' ']) scattered
  obtain ⟨_, herror, _⟩ := tokens_placed (.ofList ['d', ' ']) scattered
  refine ⟨(hok _).mpr ⟨?_, by decide⟩, (herror _).mpr ?_⟩
  · simp [scattered, isBlank, Text.blankRanges]
  · refine ⟨['d', ' ', '\r', '\n', '\u2028'], 'a', [], rfl, ?_, rfl, by decide, by decide⟩
    simp [isBlank, Text.blankRanges]

end CharGrammar.Scan
