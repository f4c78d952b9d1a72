import CharGrammar.Ordered.Key

namespace CharGrammar

inductive Symbol where
  | terminal (char : Char)
  | nonterminal (char : Char)
deriving DecidableEq, Repr

/-- A sentential form: what a derivation works on. -/
abbrev Form := List Symbol

abbrev Alternative := List Symbol

/-- The alternatives of one nonterminal, in the order in which they are given. -/
abbrev Body := List Alternative

namespace Symbol

def char : Symbol → Char
  | terminal c => c
  | nonterminal c => c

def isNonterminal : Symbol → Bool
  | terminal _ => false
  | nonterminal _ => true

instance : ToString Symbol := ⟨fun s => String.singleton s.char⟩

/-- Terminals come before nonterminals, and each kind is ordered by code point. -/
instance : Key Symbol where
  rank
    | terminal c => c.toNat
    | nonterminal c => 0x110000 + c.toNat
  rank_injective := by
    intro a b h
    have ha := toNat_lt_char_bound a.char
    have hb := toNat_lt_char_bound b.char
    cases a <;> cases b <;> simp only [char] at h ha hb
    · rw [Char.toNat_inj.mp h]
    · omega
    · omega
    · rw [Char.toNat_inj.mp (Nat.add_left_cancel h)]

end Symbol

/-- The characters of a form, whatever their kind. -/
def Form.chars (form : Form) : List Char := form.map Symbol.char

def Form.text (form : Form) : String := String.ofList form.chars

def Form.nonterminals (form : Form) : List Char :=
  form.filterMap fun
    | .terminal _ => none
    | .nonterminal c => some c

def Form.terminals (form : Form) : List Char :=
  form.filterMap fun
    | .terminal c => some c
    | .nonterminal _ => none

end CharGrammar
