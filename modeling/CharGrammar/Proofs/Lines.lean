import CharGrammar.Text

namespace CharGrammar.Text

variable {α : Type} [DecidableEq α] {lineEnd ret : α} {line front back : List α}

/-- A text is a last line without a line end, or a line with one and then a text. -/
theorem line_induction (lineEnd : α) {P : List α → Prop}
    (last : ∀ line, lineEnd ∉ line → P line)
    (next : ∀ line rest, lineEnd ∉ line → P rest → P (line ++ lineEnd :: rest)) (text : List α) :
    P text := by
  induction hn : text.length using Nat.strongRecOn generalizing text with
  | ind n ih =>
    by_cases hm : lineEnd ∈ text
    · obtain ⟨line, rest, rfl, hline⟩ := List.eq_append_cons_of_mem hm
      refine next line rest hline (ih rest.length ?_ rest rfl)
      simp only [List.length_append, List.length_cons] at hn
      omega
    · exact last text hm

/-- No piece holds what the pieces were cut at. -/
theorem not_mem_of_mem_splitOn {piece text : List α} (h : piece ∈ text.splitOn lineEnd) :
    lineEnd ∉ piece := by
  induction text using line_induction lineEnd with
  | last line hline =>
    rw [List.splitOn_eq_singleton hline, List.mem_singleton] at h
    exact h ▸ hline
  | next line rest hline ih =>
    rw [List.splitOn_append_cons_self_of_not_mem hline] at h
    rcases List.mem_cons.mp h with rfl | h
    · exact hline
    · exact ih h

theorem mem_of_mem_dropReturn {line : List α} {x : α} (h : x ∈ dropReturn ret line) :
    x ∈ line := by
  unfold dropReturn at h
  split at h
  · exact (List.dropLast_sublist line).subset h
  · exact h

theorem dropReturn_of_not_mem {line : List α} (h : ret ∉ line) : dropReturn ret line = line :=
  if_neg fun he => h (List.mem_of_getLast? he)

theorem dropReturn_concat {line : List α} : dropReturn ret (line ++ [ret]) = line := by
  rw [dropReturn, if_pos List.getLast?_concat, List.dropLast_concat]

theorem dropReturn_append {front back : List α} (h : back ≠ []) :
    dropReturn ret (front ++ back) = front ++ dropReturn ret back := by
  unfold dropReturn
  rw [List.getLast?_append, List.getLast?_eq_some_getLast h, Option.some_or,
    List.dropLast_append_of_ne_nil h]
  split <;> rfl

theorem mem_of_mem_closeLines {found : List (List α)} {line : List α}
    (h : line ∈ closeLines ret found) : ∃ piece ∈ found, ∀ x ∈ line, x ∈ piece := by
  induction found with
  | nil => cases h
  | cons piece rest ih =>
    cases rest with
    | nil =>
      unfold closeLines at h
      split at h
      · cases h
      · exact ⟨piece, by simp, by simp [List.mem_singleton.mp h]⟩
    | cons next others =>
      rcases List.mem_cons.mp h with rfl | h
      · exact ⟨piece, List.mem_cons_self, fun x hx => mem_of_mem_dropReturn hx⟩
      · obtain ⟨p, hp, hx⟩ := ih h
        exact ⟨p, List.mem_cons_of_mem _ hp, hx⟩

theorem lineEnd_not_mem {text line : List α} (h : line ∈ lines lineEnd ret text) :
    lineEnd ∉ line := by
  obtain ⟨piece, hp, hm⟩ := mem_of_mem_closeLines h
  exact fun he => not_mem_of_mem_splitOn hp (hm _ he)

/-- Written with a line end after each, lines are cut there, and nothing is left after the last. -/
theorem splitOn_written {written : List (List α)} (h : ∀ line ∈ written, lineEnd ∉ line) :
    (written.flatMap (· ++ [lineEnd])).splitOn lineEnd = written ++ [[]] := by
  induction written with
  | nil => rfl
  | cons line rest ih =>
    have hr := ih fun l hl => h l (List.mem_cons_of_mem _ hl)
    rw [List.flatMap_cons, List.append_assoc, List.singleton_append,
      List.splitOn_append_cons_self_of_not_mem (h line List.mem_cons_self), hr]
    rfl

theorem closeLines_written {written : List (List α)}
    (h : ∀ line ∈ written, line.getLast? ≠ some ret) :
    closeLines ret (written ++ [[]]) = written := by
  induction written with
  | nil => rfl
  | cons line rest ih =>
    have hr := ih fun l hl => h l (List.mem_cons_of_mem _ hl)
    have hline : dropReturn ret line = line := if_neg (h line List.mem_cons_self)
    cases rest with
    | nil => simp [closeLines, hline]
    | cons next others =>
      rw [List.cons_append] at hr
      rw [List.cons_append, List.cons_append, closeLines, hline, hr]

theorem lines_written {written : List (List α)} (he : ∀ line ∈ written, lineEnd ∉ line)
    (hr : ∀ line ∈ written, line.getLast? ≠ some ret) :
    lines lineEnd ret (written.flatMap (· ++ [lineEnd])) = written := by
  rw [lines, splitOn_written he, closeLines_written hr]

theorem lines_of_not_mem (h : lineEnd ∉ line) :
    lines lineEnd ret line = if line = [] then [] else [line] := by
  rw [lines, List.splitOn_eq_singleton h]
  rfl

theorem lines_line_append (h : lineEnd ∉ line) :
    lines lineEnd ret (line ++ lineEnd :: back) =
      dropReturn ret line :: lines lineEnd ret back := by
  rw [lines, List.splitOn_append_cons_self_of_not_mem h, lines]
  cases hp : back.splitOn lineEnd with
  | nil => exact absurd hp (List.splitOn_ne_nil _ _)
  | cons piece others => rfl

/-- What comes after these begins a line. -/
def AtLineStart (lineEnd : α) (front : List α) : Prop :=
  front = [] ∨ front.getLast? = some lineEnd

omit [DecidableEq α] in
theorem AtLineStart.of_append (h : AtLineStart lineEnd (line ++ lineEnd :: front)) :
    AtLineStart lineEnd front := by
  cases front with
  | nil => exact .inl rfl
  | cons x rest => exact .inr (by simpa [AtLineStart] using h)

/-- Where a line begins, a text can be cut without cutting a line. -/
theorem lines_append (h : AtLineStart lineEnd front) :
    lines lineEnd ret (front ++ back) = lines lineEnd ret front ++ lines lineEnd ret back := by
  induction front using line_induction lineEnd with
  | last line hline =>
    rcases h with rfl | h
    · rfl
    · exact absurd (List.mem_of_getLast? h) hline
  | next line rest hline ih =>
    rw [List.append_assoc, List.cons_append, lines_line_append hline, lines_line_append hline,
      ih h.of_append, List.cons_append]

theorem length_lines (h : AtLineStart lineEnd front) :
    (lines lineEnd ret front).length = front.count lineEnd := by
  induction front using line_induction lineEnd with
  | last line hline =>
    rcases h with rfl | h
    · rfl
    · exact absurd (List.mem_of_getLast? h) hline
  | next line rest hline ih =>
    rw [lines_line_append hline, List.length_cons, ih h.of_append, List.count_append,
      List.count_eq_zero_of_not_mem hline, List.count_cons_self, Nat.zero_add]

end CharGrammar.Text
