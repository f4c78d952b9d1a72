import CharGrammar.Symbol

namespace CharGrammar

inductive DerivationError where
  | noRule (nonterminal : Char)
  | limitExceeded (steps length : Nat)
deriving DecidableEq, Repr

namespace DerivationError

def message : DerivationError → String
  | noRule x => s!"No definition for nonterminal `{x}`"
  | limitExceeded steps length =>
    s!"Derivation did not terminate within its limits ({steps} steps, form of length {length})"

instance : ToString DerivationError := ⟨message⟩

end DerivationError

/-- The leftmost nonterminal of a form, with what stands before and after it. -/
def Form.leftmost? : Form → Option (Form × Char × Form)
  | [] => none
  | .nonterminal x :: rest => some ([], x, rest)
  | .terminal c :: rest =>
    (leftmost? rest).map fun (before, x, after) => (.terminal c :: before, x, after)

theorem Form.leftmost?_eq_none_iff {form : Form} :
    form.leftmost? = none ↔ ∀ s ∈ form, s.isNonterminal = false := by
  induction form with
  | nil => simp [Form.leftmost?]
  | cons s rest ih => cases s <;> simp [Form.leftmost?, Symbol.isNonterminal, ih]

theorem Form.eq_of_leftmost? {form before after : Form} {x : Char}
    (h : form.leftmost? = some (before, x, after)) :
    form = before ++ .nonterminal x :: after ∧ ∀ s ∈ before, s.isNonterminal = false := by
  induction form generalizing before with
  | nil => cases h
  | cons s rest ih =>
    cases s with
    | nonterminal y =>
      simp only [Form.leftmost?, Option.some.injEq, Prod.mk.injEq] at h
      obtain ⟨rfl, rfl, rfl⟩ := h
      exact ⟨rfl, by simp⟩
    | terminal c =>
      obtain ⟨⟨front, y, back⟩, hr, he⟩ := Option.map_eq_some_iff.mp h
      simp only [Prod.mk.injEq] at he
      obtain ⟨rfl, rfl, rfl⟩ := he
      obtain ⟨rfl, hf⟩ := ih hr
      refine ⟨rfl, ?_⟩
      intro s hs
      rcases List.mem_cons.mp hs with rfl | hs
      · rfl
      · exact hf s hs

/-- Upper bounds on a derivation, where `none` means no bound. -/
structure Limits where
  maxSteps : Option Nat := none
  maxLength : Option Nat := none
deriving DecidableEq, Repr

namespace Limits

def unbounded : Limits := {}

/-- No further step may follow so many. -/
def stepsReached (l : Limits) (steps : Nat) : Bool := l.maxSteps.any (· ≤ steps)

/-- A form of this length may not stand. -/
def lengthPassed (l : Limits) (length : Nat) : Bool := l.maxLength.any (· < length)

end Limits

/-- The forms of a derivation, from the start symbol alone to the last. -/
structure Derivation where
  forms : List Form
deriving DecidableEq, Repr

namespace Derivation

/-- Fuel for more steps than a user would wait for. -/
def patience : Nat := 0x4000000000000000

def steps (d : Derivation) : Nat := d.forms.length - 1

/-- The word that the last form spells. -/
def result (d : Derivation) : List Char := (d.forms.getLast?.map Form.chars).getD []

def text (d : Derivation) : String := " => ".intercalate (d.forms.map Form.text)

instance : ToString Derivation := ⟨text⟩

end Derivation

end CharGrammar
