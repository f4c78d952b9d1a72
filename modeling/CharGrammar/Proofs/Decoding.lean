import Mathlib.Logic.Basic
import CharGrammar.Proofs.Lines

namespace CharGrammar.Text

variable {c d e : Char} {b b' : UInt8} {text : List Char} {bytes line : List UInt8}

/-- The bytes of a text in UTF-8. -/
def encode (text : List Char) : List UInt8 := text.flatMap String.utf8EncodeChar

/-- Bytes that can be decoded. -/
def IsText (bytes : List UInt8) : Prop := bytes.toByteArray.IsValidUTF8

instance : DecidablePred IsText :=
  fun bytes => inferInstanceAs (Decidable bytes.toByteArray.IsValidUTF8)

/-- The text of bytes, if they are text. -/
def decode? (bytes : List UInt8) : Option (List Char) :=
  (String.fromUTF8? bytes.toByteArray).map String.toList

theorem encode_append {front back : List Char} :
    encode (front ++ back) = encode front ++ encode back :=
  List.flatMap_append

theorem encode_eq_nil_iff : encode text = [] ↔ text = [] := by
  cases text with
  | nil => exact iff_of_true rfl rfl
  | cons c rest =>
    rw [encode, List.flatMap_cons, List.append_eq_nil_iff]
    exact iff_of_false (fun h => String.utf8EncodeChar_ne_nil h.1) (List.cons_ne_nil c rest)

theorem isText_iff : IsText bytes ↔ ∃ text, bytes = encode text := by
  constructor
  · intro h
    obtain ⟨text, ht⟩ := h
    refine ⟨text, ?_⟩
    have hl := congrArg (fun b : ByteArray => b.data.toList) ht
    simpa [List.utf8Encode, encode] using hl
  · intro h
    obtain ⟨text, rfl⟩ := h
    exact ⟨text, rfl⟩

theorem isText_encode : IsText (encode text) := isText_iff.mpr ⟨text, rfl⟩

theorem fromUTF8?_encode :
    String.fromUTF8? (encode text).toByteArray = some (String.ofList text) := by
  have hv : (encode text).toByteArray.IsValidUTF8 := isText_encode
  rw [String.fromUTF8?, dif_pos hv]
  rfl

theorem decode?_encode : decode? (encode text) = some text := by
  rw [decode?, fromUTF8?_encode, Option.map_some, String.toList_ofList]

theorem decode?_of_not_isText (h : ¬ IsText bytes) : decode? bytes = none := by
  have hv : ¬ bytes.toByteArray.IsValidUTF8 := h
  rw [decode?, String.fromUTF8?, dif_neg hv]
  rfl

/-- Characters above 127 have no bytes below 128. -/
theorem lt_of_mem_utf8EncodeChar (hc : 127 < c.val.toNat) (h : b ∈ String.utf8EncodeChar c) :
    127 < b.toNat := by
  have hbyte : ∀ n m, 127 < m → n + m < 256 → 127 < (UInt8.ofNat (n + m)).toNat := by
    intro n m hm hn
    rw [UInt8.toNat_ofNat', Nat.mod_eq_of_lt hn]
    omega
  unfold String.utf8EncodeChar at h
  dsimp only at h
  rw [if_neg (by omega)] at h
  split at h
  · simp only [List.mem_cons, List.not_mem_nil, or_false] at h
    rcases h with rfl | rfl <;> exact hbyte _ _ (by omega) (by omega)
  · split at h
    · simp only [List.mem_cons, List.not_mem_nil, or_false] at h
      rcases h with rfl | rfl | rfl <;> exact hbyte _ _ (by omega) (by omega)
    · simp only [List.mem_cons, List.not_mem_nil, or_false] at h
      rcases h with rfl | rfl | rfl | rfl <;> exact hbyte _ _ (by omega) (by omega)

theorem toNat_eq_of_mem_utf8EncodeChar (h : b ∈ String.utf8EncodeChar c) (hb : b.toNat ≤ 127) :
    c.val.toNat = b.toNat := by
  rcases Nat.lt_or_ge 127 c.val.toNat with hc | hc
  · have hl := lt_of_mem_utf8EncodeChar hc h
    omega
  · have he : String.utf8EncodeChar c = [UInt8.ofNat c.val.toNat] := if_pos hc
    rw [he] at h
    rw [List.mem_singleton.mp h, UInt8.toNat_ofNat', Nat.mod_eq_of_lt (by omega)]

/-- A character of one byte, which is then a byte below 128. -/
structure OneByte (c : Char) (b : UInt8) : Prop where
  utf8EncodeChar_eq : String.utf8EncodeChar c = [b]
  toNat_le : b.toNat ≤ 127

theorem OneByte.lineEnd : OneByte '\n' 0x0A := ⟨rfl, by decide⟩

theorem OneByte.ret : OneByte '\r' 0x0D := ⟨rfl, by decide⟩

namespace OneByte

/-- The byte occurs in no other character. -/
theorem mem_utf8EncodeChar_iff (h : OneByte d b) : b ∈ String.utf8EncodeChar c ↔ c = d := by
  have hself : b ∈ String.utf8EncodeChar d := by
    rw [h.utf8EncodeChar_eq]
    exact List.mem_singleton_self b
  constructor
  · intro hm
    have hc := toNat_eq_of_mem_utf8EncodeChar hm h.toNat_le
    have hd := toNat_eq_of_mem_utf8EncodeChar hself h.toNat_le
    exact Char.ext (UInt32.toNat_inj.mp (hc.trans hd.symm))
  · rintro rfl
    exact hself

theorem mem_encode_iff (h : OneByte d b) : b ∈ encode text ↔ d ∈ text := by
  simp only [encode, List.mem_flatMap, h.mem_utf8EncodeChar_iff, exists_eq_right]

theorem encode_append_cons (h : OneByte d b) {front back : List Char} :
    encode (front ++ d :: back) = encode front ++ b :: encode back := by
  rw [encode_append, encode, encode, encode, List.flatMap_cons, h.utf8EncodeChar_eq,
    List.singleton_append]

theorem encode_concat (h : OneByte d b) {front : List Char} :
    encode (front ++ [d]) = encode front ++ [b] :=
  h.encode_append_cons

theorem dropReturn_encode (h : OneByte d b) :
    dropReturn b (encode text) = encode (dropReturn d text) := by
  rcases List.eq_nil_or_concat text with rfl | ⟨front, c, rfl⟩
  · rfl
  · rw [List.concat_eq_append]
    by_cases hc : c = d
    · subst hc
      rw [h.encode_concat, dropReturn_concat, dropReturn_concat]
    · have hlast : encode [c] = String.utf8EncodeChar c := List.flatMap_singleton _ _
      have hn : encode [c] ≠ [] := by
        rw [hlast]
        exact String.utf8EncodeChar_ne_nil
      have hb : b ∉ encode [c] := by
        rw [hlast]
        exact h.mem_utf8EncodeChar_iff.not.mpr hc
      have hd : d ∉ [c] := by simpa using Ne.symm hc
      rw [encode_append, dropReturn_append hn, dropReturn_of_not_mem hb,
        dropReturn_append (List.cons_ne_nil c []), dropReturn_of_not_mem hd, encode_append]

/-- The lines of bytes that are text are the lines of that text. -/
theorem lines_encode (he : OneByte e b') (hd : OneByte d b) :
    lines b' b (encode text) = (lines e d text).map encode := by
  induction text using line_induction e with
  | last line hline =>
    rw [lines_of_not_mem hline, lines_of_not_mem (he.mem_encode_iff.not.mpr hline)]
    by_cases hn : line = []
    · rw [if_pos hn, if_pos (encode_eq_nil_iff.mpr hn), List.map_nil]
    · rw [if_neg hn, if_neg (encode_eq_nil_iff.not.mpr hn), List.map_singleton]
  | next line rest hline ih =>
    rw [lines_line_append hline, he.encode_append_cons,
      lines_line_append (he.mem_encode_iff.not.mpr hline), ih, hd.dropReturn_encode, List.map_cons]

/-- Bytes are text if all their lines are. -/
theorem isText_of_splitOn (h : OneByte d b) (hl : ∀ line ∈ bytes.splitOn b, IsText line) :
    IsText bytes := by
  induction bytes using line_induction b with
  | last line hline =>
    rw [List.splitOn_eq_singleton hline] at hl
    exact hl line (List.mem_singleton_self line)
  | next line rest hline ih =>
    rw [List.splitOn_append_cons_self_of_not_mem hline] at hl
    obtain ⟨hfirst, hrest⟩ := List.forall_mem_cons.mp hl
    obtain ⟨front, rfl⟩ := isText_iff.mp hfirst
    obtain ⟨back, rfl⟩ := isText_iff.mp (ih hrest)
    exact isText_iff.mpr ⟨front ++ d :: back, h.encode_append_cons.symm⟩

/-- A return at the end of a line does not matter to whether it is text. -/
theorem isText_dropReturn_iff (h : OneByte d b) : IsText (dropReturn b line) ↔ IsText line := by
  by_cases he : line.getLast? = some b
  · obtain ⟨front, rfl⟩ := List.getLast?_eq_some_iff.mp he
    constructor
    · intro hl
      rw [dropReturn_concat] at hl
      obtain ⟨text, rfl⟩ := isText_iff.mp hl
      exact isText_iff.mpr ⟨text ++ [d], h.encode_concat.symm⟩
    · intro hl
      obtain ⟨text, ht⟩ := isText_iff.mp hl
      rw [ht, h.dropReturn_encode]
      exact isText_encode
  · rw [dropReturn, if_neg he]

end OneByte

end CharGrammar.Text
