import CharGrammar.Proofs.Decoding
import CharGrammar.Proofs.Layout
import CharGrammar.Proofs.StatedRules

namespace CharGrammar

open Text

/-- A place in a text that has come from a file. -/
def Location.withFile (file : String) (l : Location) : Location :=
  if l.file = "" then { l with file := file } else l

theorem Location.withFile_inFile {file : String} {n : Nat} :
    (Location.inFile "" n).withFile file = .inFile file n := rfl

namespace RuleFile

/-- A line of a file as it stands in a text where blank lines take the place of lines that are not
text. -/
inductive BlankedAs : List UInt8 → List Char → Prop
  | text {line : List Char} : BlankedAs (encode line) line
  | blank {bytes : List UInt8} {line : List Char} (not_text : ¬ IsText bytes)
      (blanks : ∀ c ∈ line, isBlank c = true) : BlankedAs bytes line

/-- A text that differs from a file only in blank lines, where the file has lines that are not
text. -/
def Blanked (bytes : List UInt8) (text : List Char) : Prop :=
  List.Forall₂ BlankedAs (bytes.splitOn 0x0A) (text.splitOn '\n')

/-- A fault tells what is wrong with a numbered line of a file. -/
def BlamesIn (file : String) (line : List Char × Nat) (fault : Located RuleFault) : Prop :=
  Rule.read line.1 = .error fault.item ∧ fault.location = .inFile file line.2

/-- The fault of each line that is not text. -/
def notTextIn (file : String) : Located RuleFault := ⟨.inFile file 0, .unreadable .notText⟩

/-- For each of the lines in order a fault if it is not text, and what is told of it. -/
def faultsByLine (file : String) (told : RuleFaults) (lines : List (List UInt8 × Nat)) :
    RuleFaults :=
  lines.flatMap fun line =>
    (if IsText line.1 then [] else [notTextIn file]) ++
      told.filter fun fault => fault.location.line = line.2

/-- The faults of a line with a number. -/
def faultsAt (file : String) (n : Nat) (line : Option (List Char)) : RuleFaults :=
  faultsOf (readLine? file n line).toList

/-- The faults of lines that are numbered from `n`. -/
def faultsFrom (file : String) (n : Nat) (lines : List (Option (List Char))) : RuleFaults :=
  faultsOf (readFrom file n lines)

variable {file : String} {n m : Nat} {bytes : List UInt8} {line : List Char} {text : List Char}
  {lines : List (Option (List Char))} {fault : Located RuleFault}

section WholeText

theorem byteLines_encode : byteLines (encode text) = (textLines text).map some := by
  have hl : byteLines (encode text) = (Text.lines 0x0A 0x0D (encode text)).map decode? := rfl
  rw [hl, OneByte.lines_encode .lineEnd .ret, List.map_map, textLines]
  exact List.map_congr_left fun line _ => decode?_encode

theorem readLines_withFile :
    readLines file lines = (readLines "" lines).map (moveReading (.withFile file)) :=
  readFrom_move Location.withFile_inFile fun _ _ => Location.withFile_inFile

theorem load_encode :
    load file (.ok (encode text)) = moved (.withFile file) (parse (String.ofList text)) := by
  rw [load, byteLines_encode, parse, String.toList_ofList]
  exact ofLines_move Location.withFile_inFile readLines_withFile

end WholeText

section Faults

theorem faultsFrom_cons {first : Option (List Char)} :
    faultsFrom file n (first :: lines) =
      faultsAt file n first ++ faultsFrom file (n + 1) lines := by
  rw [faultsFrom, readFrom_cons, faultsOf, List.filterMap_append]
  rfl

theorem line_of_mem_faultsAt (h : fault ∈ faultsAt file n (some line)) :
    fault.location.line = n := by
  rw [faultsAt, readLine?] at h
  split at h
  · split at h
    · cases h
    · cases List.mem_singleton.mp h
      rfl
  · cases h

theorem le_of_mem_faultsFrom {lines : List (List Char)}
    (h : fault ∈ faultsFrom file n (lines.map some)) : n ≤ fault.location.line := by
  induction lines generalizing n with
  | nil => cases h
  | cons line rest ih =>
    rw [List.map_cons, faultsFrom_cons] at h
    rcases List.mem_append.mp h with h | h
    · exact Nat.le_of_eq (line_of_mem_faultsAt h).symm
    · exact Nat.le_of_succ_le (ih h)

theorem filter_line_eq_nil {faults : RuleFaults}
    (h : ∀ fault ∈ faults, fault.location.line ≠ m) :
    faults.filter (·.location.line = m) = [] :=
  List.filter_eq_nil_iff.mpr fun fault hf he => h fault hf (of_decide_eq_true he)

/-- What is told of the first line is told of no other. -/
theorem filter_faultsFrom_first {lines : List (List Char)} :
    (faultsFrom file n ((line :: lines).map some)).filter (·.location.line = n) =
      faultsAt file n (some line) := by
  have hat : (faultsAt file n (some line)).filter (·.location.line = n) =
      faultsAt file n (some line) :=
    List.filter_eq_self.mpr fun fault hf => decide_eq_true (line_of_mem_faultsAt hf)
  have hfrom : (faultsFrom file (n + 1) (lines.map some)).filter (·.location.line = n) = [] :=
    filter_line_eq_nil fun fault hf => Nat.ne_of_gt (le_of_mem_faultsFrom hf)
  rw [List.map_cons, faultsFrom_cons, List.filter_append, hat, hfrom, List.append_nil]

theorem filter_faultsFrom_later {lines : List (List Char)} (h : n < m) :
    (faultsFrom file n ((line :: lines).map some)).filter (·.location.line = m) =
      (faultsFrom file (n + 1) (lines.map some)).filter (·.location.line = m) := by
  have hat : (faultsAt file n (some line)).filter (·.location.line = m) = [] := by
    apply filter_line_eq_nil
    intro fault hf
    rw [line_of_mem_faultsAt hf]
    exact Nat.ne_of_lt h
  rw [List.map_cons, faultsFrom_cons, List.filter_append, hat, List.nil_append]

end Faults

section Blanked

theorem BlankedAs.dropReturn (h : BlankedAs bytes line) :
    BlankedAs (dropReturn 0x0D bytes) (dropReturn '\r' line) := by
  cases h with
  | text =>
    rw [OneByte.ret.dropReturn_encode]
    exact .text
  | blank not_text blanks =>
    exact .blank (OneByte.ret.isText_dropReturn_iff.not.mpr not_text)
      fun c hc => blanks c (mem_of_mem_dropReturn hc)

theorem BlankedAs.faultsAt_decode? (h : BlankedAs bytes line) :
    faultsAt file n (decode? bytes) =
      (if IsText bytes then [] else [notTextIn file]) ++ faultsAt file n (some line) := by
  cases h with
  | text => rw [if_pos isText_encode, decode?_encode, List.nil_append]
  | blank not_text blanks =>
    have hline : readLine? file n (some line) = none := by
      rw [readLine?, statesRule_of_remark (.blank blanks)]
      rfl
    rw [if_neg not_text, decode?_of_not_isText not_text, faultsAt, faultsAt, hline]
    rfl

/-- An empty last line has no faults, and so does not matter. -/
theorem faultsFrom_last {α : Type} [DecidableEq α] {ret : α} {last : List α}
    {decode : List α → Option (List Char)} (h : decode [] = some []) :
    faultsFrom file n ((closeLines ret [last]).map decode) =
      faultsFrom file n [decode last] := by
  by_cases hl : last = []
  · rw [closeLines, if_pos hl, hl, h]
    rfl
  · rw [closeLines, if_neg hl, List.map_singleton]

theorem faultsByLine_congr {told told' : RuleFaults} {lines : List (List UInt8 × Nat)}
    (h : ∀ line ∈ lines, told.filter (·.location.line = line.2) =
      told'.filter (·.location.line = line.2)) :
    faultsByLine file told lines = faultsByLine file told' lines := by
  rw [faultsByLine, faultsByLine, List.flatMap_def, List.flatMap_def]
  congr 1
  refine List.map_congr_left fun line hl => ?_
  rw [h line hl]

theorem faultsByLine_cons (lines : List (List Char)) (rest : List (List UInt8)) :
    faultsByLine file (faultsFrom file n ((line :: lines).map some)) ((bytes :: rest).zipIdx n) =
      (if IsText bytes then [] else [notTextIn file]) ++ faultsAt file n (some line) ++
        faultsByLine file (faultsFrom file (n + 1) (lines.map some)) (rest.zipIdx (n + 1)) := by
  have hlater : faultsByLine file (faultsFrom file n ((line :: lines).map some))
      (rest.zipIdx (n + 1)) =
        faultsByLine file (faultsFrom file (n + 1) (lines.map some)) (rest.zipIdx (n + 1)) :=
    faultsByLine_congr fun later hm => filter_faultsFrom_later (List.le_snd_of_mem_zipIdx hm)
  rw [← hlater, List.zipIdx_cons, faultsByLine, List.flatMap_cons, filter_faultsFrom_first]
  rfl

/-- The induction is on the pieces, since a last line that is not text may have an empty piece in
its place, which is no line. -/
theorem faultsFrom_of_blankedAs {found : List (List UInt8)} {lines : List (List Char)}
    (h : List.Forall₂ BlankedAs found lines) :
    faultsFrom file n ((closeLines 0x0D found).map decode?) =
      faultsByLine file (faultsFrom file n ((closeLines '\r' lines).map some))
        (found.zipIdx n) := by
  induction h generalizing n with
  | nil => rfl
  | @cons first line rest others hfirst hrest ih =>
    cases hrest with
    | nil =>
      have hnil : decode? (encode []) = some [] := decode?_encode
      rw [faultsFrom_last hnil, faultsFrom_last rfl, faultsFrom_cons, hfirst.faultsAt_decode?]
      exact (faultsByLine_cons [] []).symm
    | cons =>
      rw [closeLines, closeLines, faultsByLine_cons, List.map_cons, faultsFrom_cons, ih,
        hfirst.dropReturn.faultsAt_decode?]
      simp only [OneByte.ret.isText_dropReturn_iff]

theorem exists_blankedAs (h : 0x0A ∉ bytes) : ∃ line, '\n' ∉ line ∧ BlankedAs bytes line := by
  by_cases ht : IsText bytes
  · obtain ⟨line, rfl⟩ := isText_iff.mp ht
    exact ⟨line, OneByte.lineEnd.mem_encode_iff.not.mp h, .text⟩
  · exact ⟨[], List.not_mem_nil, .blank ht nofun⟩

theorem exists_blanked : ∃ text : String, Blanked bytes text.toList := by
  suffices h : ∃ text, Blanked bytes text by
    obtain ⟨text, ht⟩ := h
    exact ⟨String.ofList text, by rwa [String.toList_ofList]⟩
  induction bytes using line_induction (0x0A : UInt8) with
  | last bytes hbytes =>
    obtain ⟨line, hn, hline⟩ := exists_blankedAs hbytes
    refine ⟨line, ?_⟩
    rw [Blanked, List.splitOn_eq_singleton hbytes, List.splitOn_eq_singleton hn]
    exact .cons hline .nil
  | next bytes rest hbytes ih =>
    obtain ⟨line, hn, hline⟩ := exists_blankedAs hbytes
    obtain ⟨text, ht⟩ := ih
    refine ⟨line ++ '\n' :: text, ?_⟩
    rw [Blanked, List.splitOn_append_cons_self_of_not_mem hbytes,
      List.splitOn_append_cons_self_of_not_mem hn]
    exact .cons hline ht

end Blanked

section Answers

theorem ofLines_of_faults (h : faultsFrom file 1 lines ≠ []) :
    ofLines file lines = .error (faultsFrom file 1 lines) := by
  have hf : faultsOf (readLines file lines) = faultsFrom file 1 lines := rfl
  rw [ofLines, hf]
  cases hc : faultsFrom file 1 lines with
  | nil => exact absurd hc h
  | cons fault faults => rfl

theorem blamesIn_faultsFrom :
    List.Forall₂ (BlamesIn file) (malformedLines text)
      (faultsFrom file 1 ((textLines text).map some)) := by
  have hb : List.Forall₂ Blames (malformedLines text) _ := blames_faultsOf
  have hf : faultsFrom file 1 ((textLines text).map some) =
      (faultsOf ((ruleLines text).map readNumbered)).map (Located.move (.withFile file)) := by
    rw [← readLines_text, ← faultsOf_move, ← readLines_withFile]
    rfl
  rw [hf, List.forall₂_map_right_iff]
  refine hb.imp ?_
  intro line fault h
  obtain ⟨hread, hplace⟩ := h
  refine ⟨hread, ?_⟩
  rw [Located.move, hplace]
  rfl

theorem value_loadLogged {contents : Except FileFault (List UInt8)} :
    (loadLogged file contents).value = load file contents := by
  rw [loadLogged]
  cases load file contents <;> rfl

theorem faultsFrom_of_blanked (h : Blanked bytes text) :
    faultsFrom file 1 (byteLines bytes) =
      faultsByLine file (faultsFrom file 1 ((textLines text).map some))
        ((bytes.splitOn 0x0A).zipIdx 1) :=
  faultsFrom_of_blankedAs h

theorem faultsByLine_ne_nil {told : RuleFaults} {lines : List (List UInt8)}
    (h : ∃ line ∈ lines, ¬ IsText line) : faultsByLine file told (lines.zipIdx n) ≠ [] := by
  obtain ⟨line, hl, ht⟩ := h
  rw [← List.zipIdx_map_fst n lines] at hl
  obtain ⟨⟨_, m⟩, hm, rfl⟩ := List.mem_map.mp hl
  have hf : notTextIn file ∈ faultsByLine file told (lines.zipIdx n) := by
    refine List.mem_flatMap.mpr ⟨_, hm, ?_⟩
    rw [if_neg ht]
    exact List.mem_cons_self
  exact List.ne_nil_of_mem hf

/-- A file is read as its text if all its lines are text. Otherwise there are texts with blank lines
in place of those that are not, and in line order these are told among the faults of such a text's
malformed lines. -/
theorem load_by_lines (file : String) (bytes : List UInt8) :
    ((∀ line ∈ bytes.splitOn 0x0A, IsText line) →
      ∃ text, String.fromUTF8? bytes.toByteArray = some text ∧
        (loadLogged file (.ok bytes)).value = moved (.withFile file) (parse text)) ∧
    ((∃ line ∈ bytes.splitOn 0x0A, ¬ IsText line) →
      (∃ text : String, Blanked bytes text.toList) ∧
      ∀ text : String, Blanked bytes text.toList →
        ∃ told, List.Forall₂ (BlamesIn file) (malformedLines text.toList) told ∧
          (told ≠ [] → (loadLogged file (.ok (encode text.toList))).value = .error told) ∧
          (loadLogged file (.ok bytes)).value =
            .error (faultsByLine file told ((bytes.splitOn 0x0A).zipIdx 1))) := by
  simp only [value_loadLogged]
  refine ⟨?_, ?_⟩
  · intro h
    obtain ⟨text, rfl⟩ := isText_iff.mp (OneByte.lineEnd.isText_of_splitOn h)
    exact ⟨_, fromUTF8?_encode, load_encode⟩
  · intro h
    refine ⟨exists_blanked, ?_⟩
    intro text hb
    refine ⟨_, blamesIn_faultsFrom, ?_, ?_⟩
    · intro hn
      rw [load, byteLines_encode]
      exact ofLines_of_faults hn
    · have hf : faultsFrom file 1 (byteLines bytes) = _ := faultsFrom_of_blanked hb
      rw [← hf, load]
      apply ofLines_of_faults
      rw [hf]
      exact faultsByLine_ne_nil h

theorem comment_not_text :
    (∃ text, String.fromUTF8? [0x53, 0x3D, 0xC3, 0xA9].toByteArray = some text ∧
      (loadLogged "f" (.ok [0x53, 0x3D, 0xC3, 0xA9])).value = moved (.withFile "f") (parse text)) ∧
    (loadLogged "f" (.ok [0x3B, 0xFF, 0x0A, 0x41, 0x20, 0x62])).value =
      .error [notTextIn "f", ⟨.inFile "f" 2, .missingEquals⟩] := by
  constructor
  · exact (load_by_lines "f" _).1 (by decide)
  · obtain ⟨_, hall⟩ := (load_by_lines "f" [0x3B, 0xFF, 0x0A, 0x41, 0x20, 0x62]).2 (by decide)
    have hblanked : Blanked [0x3B, 0xFF, 0x0A, 0x41, 0x20, 0x62] " \nA b".toList := by
      have hbytes : [0x3B, 0xFF, 0x0A, 0x41, 0x20, 0x62].splitOn (0x0A : UInt8) =
          [[0x3B, 0xFF], encode ['A', ' ', 'b']] := by decide
      have htext : " \nA b".toList.splitOn '\n' = [[' '], ['A', ' ', 'b']] := by decide
      rw [Blanked, hbytes, htext]
      exact .cons (.blank (by decide) (List.forall_mem_singleton.mpr rfl)) (.cons .text .nil)
    obtain ⟨told, hblames, _, hanswer⟩ := hall " \nA b" hblanked
    have hlines : malformedLines " \nA b".toList = [("A b".toList, 2)] := by decide
    rw [hlines] at hblames
    cases hblames with
    | @cons _ fault _ _ hfault hrest =>
      cases hrest
      obtain ⟨hread, hplace⟩ := hfault
      have hitem : Rule.read "A b".toList = .error .missingEquals := by decide
      obtain ⟨location, item⟩ := fault
      cases hplace
      cases hitem.symm.trans hread
      rw [hanswer]
      decide

end Answers

end RuleFile

end CharGrammar
