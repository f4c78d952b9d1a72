import CharGrammar.Ordered.Key

namespace CharGrammar

open Key (Before)

/-- The members are listed in ascending order, each once, so that equal sets are equal values. -/
structure OrderedSet (κ : Type) [Key κ] where
  toList : List κ
  ascending : toList.Pairwise Before

abbrev CharSet := OrderedSet Char

namespace OrderedSet

variable {κ : Type} [Key κ]

theorem ext_toList {s t : OrderedSet κ} (h : s.toList = t.toList) : s = t := by
  cases s
  cases t
  simp_all

instance [DecidableEq κ] : DecidableEq (OrderedSet κ) := fun s t =>
  if h : s.toList = t.toList then isTrue (ext_toList h) else isFalse (fun he => h (he ▸ rfl))

instance : Membership κ (OrderedSet κ) := ⟨fun s k => k ∈ s.toList⟩

instance [DecidableEq κ] (k : κ) (s : OrderedSet κ) : Decidable (k ∈ s) :=
  inferInstanceAs (Decidable (k ∈ s.toList))

@[simp] theorem mem_toList {k : κ} {s : OrderedSet κ} : k ∈ s.toList ↔ k ∈ s := Iff.rfl

def empty : OrderedSet κ := ⟨[], .nil⟩

instance : EmptyCollection (OrderedSet κ) := ⟨empty⟩

@[simp] theorem not_mem_empty {k : κ} : k ∉ (∅ : OrderedSet κ) := by
  intro h
  cases h

def size (s : OrderedSet κ) : Nat := s.toList.length

variable [DecidableEq κ]

/-- Puts a key at its place, unless it stands there already. -/
def insertKey (k : κ) : List κ → List κ
  | [] => [k]
  | x :: rest =>
    if Before k x then k :: x :: rest
    else if k = x then x :: rest
    else x :: insertKey k rest

@[simp] theorem mem_insertKey {k x : κ} {keys : List κ} :
    x ∈ insertKey k keys ↔ x = k ∨ x ∈ keys := by
  induction keys with
  | nil => simp [insertKey]
  | cons y rest ih => grind [insertKey]

theorem ascending_insertKey {k : κ} {keys : List κ} (h : keys.Pairwise Before) :
    (insertKey k keys).Pairwise Before := by
  induction keys with
  | nil => simp [insertKey]
  | cons x rest ih =>
    obtain ⟨hx, hr⟩ := List.pairwise_cons.mp h
    by_cases hlt : Before k x
    · rw [insertKey, if_pos hlt]
      refine List.pairwise_cons.mpr ⟨?_, h⟩
      intro y hy
      rcases List.mem_cons.mp hy with rfl | hy
      · exact hlt
      · exact hlt.trans (hx y hy)
    · by_cases he : k = x
      · rw [insertKey, if_neg hlt, if_pos he]
        exact h
      · rw [insertKey, if_neg hlt, if_neg he]
        refine List.pairwise_cons.mpr ⟨?_, ih hr⟩
        intro y hy
        rcases mem_insertKey.mp hy with rfl | hy
        · exact Key.before_of_not hlt he
        · exact hx y hy

def insert (s : OrderedSet κ) (k : κ) : OrderedSet κ :=
  ⟨insertKey k s.toList, ascending_insertKey s.ascending⟩

@[simp] theorem mem_insert {s : OrderedSet κ} {k x : κ} : x ∈ s.insert k ↔ x = k ∨ x ∈ s :=
  mem_insertKey

def ofList (keys : List κ) : OrderedSet κ := keys.foldl insert ∅

theorem mem_foldl_insert {keys : List κ} {s : OrderedSet κ} {x : κ} :
    x ∈ keys.foldl insert s ↔ x ∈ keys ∨ x ∈ s := by
  induction keys generalizing s with
  | nil => simp
  | cons k rest ih => grind [mem_insert]

@[simp] theorem mem_ofList {keys : List κ} {x : κ} : x ∈ ofList keys ↔ x ∈ keys := by
  simp [ofList, mem_foldl_insert]

omit [DecidableEq κ] in
/-- A set is known by its members. -/
theorem ext_mem {s t : OrderedSet κ} (h : ∀ k, k ∈ s ↔ k ∈ t) : s = t :=
  ext_toList (Key.eq_of_ascending (f := id) s.ascending t.ascending h)

/-- The members that satisfy a test. -/
def filter (s : OrderedSet κ) (p : κ → Bool) : OrderedSet κ :=
  ⟨s.toList.filter p, s.ascending.filter p⟩

omit [DecidableEq κ] in
@[simp] theorem mem_filter {s : OrderedSet κ} {p : κ → Bool} {k : κ} :
    k ∈ s.filter p ↔ k ∈ s ∧ p k = true :=
  List.mem_filter

end OrderedSet

/-- A set of characters is written as its characters in ascending order. -/
def CharSet.text (s : CharSet) : String := String.ofList s.toList

/-- The characters in ascending order, with a comma and a space between them. -/
def CharSet.listing (s : CharSet) : String :=
  ", ".intercalate (s.toList.map String.singleton)

end CharGrammar
