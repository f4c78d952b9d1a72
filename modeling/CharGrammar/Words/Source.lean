namespace CharGrammar

/-- A source gives a word of 32 bits and goes on as another source. -/
class WordSource (σ : Type) where
  next : σ → UInt32 × σ

/-- A source together with the number of words drawn from it. -/
structure Counted (σ : Type) where
  source : σ
  draws : Nat := 0

instance {σ : Type} [WordSource σ] : WordSource (Counted σ) where
  next c :=
    let (word, source) := WordSource.next c.source
    (word, ⟨source, c.draws + 1⟩)

namespace Choice

/-- The greatest low half of a product that is fair: one less than the count moved up until its
highest bit is the 32nd. -/
def zone (count : Nat) : Nat := (count <<< (31 - count.log2)) - 1

/-- A word is fair for a choice if the low half of its product with the count lies in the zone. -/
def Fair (count : Nat) (word : UInt32) : Prop := word.toNat * count % UInt32.size ≤ zone count

instance (count : Nat) (word : UInt32) : Decidable (Fair count word) :=
  inferInstanceAs (Decidable (_ ≤ _))

/-- The index that a word stands for is the high half of its product with the count. -/
def index (count : Nat) (word : UInt32) : Nat := word.toNat * count / UInt32.size

theorem index_lt {count : Nat} (word : UInt32) (h : 0 < count) : index count word < count := by
  unfold index
  apply Nat.div_lt_of_lt_mul
  exact Nat.mul_lt_mul_of_pos_right word.toNat_lt h

end Choice

/-- Draws words until one is fair and takes the element that it stands for. `none` means that the
fuel ran out before. Words of 32 bits are what a choice among fewer than `2 ^ 32` elements is made
with. One among more of them would need 64 bits at a time, but is made with 32 here all the same. -/
def choose {α σ : Type} [WordSource σ] (first : α) (rest : List α) :
    (fuel : Nat) → (source : σ) → Option (α × σ)
  | 0, _ => none
  | fuel + 1, source =>
    let count := rest.length + 1
    let (word, source) := WordSource.next source
    if Choice.Fair count word then
      some ((first :: rest).get ⟨Choice.index count word,
        Choice.index_lt word (Nat.succ_pos rest.length)⟩, source)
    else choose first rest fuel source

end CharGrammar
