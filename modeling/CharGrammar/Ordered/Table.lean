import CharGrammar.Ordered.Set

namespace CharGrammar

open Key (Before)

/-- The entries are listed by ascending key, so that equal maps are equal values. -/
structure Table (κ α : Type) [Key κ] where
  entries : List (κ × α)
  ascending : (entries.map Prod.fst).Pairwise Before

namespace Table

variable {κ α β : Type} [Key κ]

theorem ext_entries {s t : Table κ α} (h : s.entries = t.entries) : s = t := by
  cases s
  cases t
  simp_all

instance [DecidableEq κ] [DecidableEq α] : DecidableEq (Table κ α) := fun s t =>
  if h : s.entries = t.entries then isTrue (ext_entries h) else isFalse (fun he => h (he ▸ rfl))

def empty : Table κ α := ⟨[], by simp⟩

instance : EmptyCollection (Table κ α) := ⟨empty⟩

def keys (t : Table κ α) : List κ := t.entries.map Prod.fst

def values (t : Table κ α) : List α := t.entries.map Prod.snd

def size (t : Table κ α) : Nat := t.entries.length

def mapValues (f : α → β) (t : Table κ α) : Table κ β where
  entries := t.entries.map (fun e => (e.1, f e.2))
  ascending := by
    rw [List.map_map]
    exact t.ascending

variable [DecidableEq κ]

def get? (t : Table κ α) (k : κ) : Option α := t.entries.lookup k

/-- Puts `f` of the value found at a key, or of nothing, at that key. -/
def upsertEntry (k : κ) (f : Option α → α) : List (κ × α) → List (κ × α)
  | [] => [(k, f none)]
  | (x, a) :: rest =>
    if Before k x then (k, f none) :: (x, a) :: rest
    else if k = x then (x, f (some a)) :: rest
    else (x, a) :: upsertEntry k f rest

/-- The keys are kept as those of a set are. -/
theorem keys_upsertEntry {k : κ} {f : Option α → α} {entries : List (κ × α)} :
    (upsertEntry k f entries).map Prod.fst =
      OrderedSet.insertKey k (entries.map Prod.fst) := by
  induction entries with
  | nil => rfl
  | cons e rest ih => grind [upsertEntry, OrderedSet.insertKey]

theorem ascending_upsertEntry {k : κ} {f : Option α → α} {entries : List (κ × α)}
    (h : (entries.map Prod.fst).Pairwise Before) :
    ((upsertEntry k f entries).map Prod.fst).Pairwise Before := by
  rw [keys_upsertEntry]
  exact OrderedSet.ascending_insertKey h

def upsert (t : Table κ α) (k : κ) (f : Option α → α) : Table κ α :=
  ⟨upsertEntry k f t.entries, ascending_upsertEntry t.ascending⟩

def insert (t : Table κ α) (k : κ) (a : α) : Table κ α := t.upsert k (fun _ => a)

/-- Of entries with one key the last counts. -/
def ofList (entries : List (κ × α)) : Table κ α :=
  entries.foldl (fun t e => t.insert e.1 e.2) ∅

theorem lookup_eq_none_of_before {k : κ} {entries : List (κ × α)}
    (h : ∀ x ∈ entries.map Prod.fst, Before k x) : entries.lookup k = none := by
  rw [List.lookup_eq_none_iff]
  intro e he
  exact bne_iff_ne.mpr (h e.1 (List.mem_map_of_mem he)).ne

theorem lookup_upsertEntry_self {k : κ} {f : Option α → α} {entries : List (κ × α)}
    (h : (entries.map Prod.fst).Pairwise Before) :
    (upsertEntry k f entries).lookup k = some (f (entries.lookup k)) := by
  induction entries with
  | nil => simp [upsertEntry]
  | cons e rest ih =>
    obtain ⟨x, a⟩ := e
    obtain ⟨hx, hr⟩ := List.pairwise_cons.mp h
    by_cases hlt : Before k x
    · have hn : ((x, a) :: rest).lookup k = none := by
        apply lookup_eq_none_of_before
        intro y hy
        rcases List.mem_cons.mp hy with rfl | hy
        · exact hlt
        · exact hlt.trans (hx y hy)
      rw [upsertEntry, if_pos hlt, hn, List.lookup_cons_self]
    · by_cases he : k = x
      · subst he
        simp [upsertEntry, hlt]
      · have hb : (k == x) = false := beq_false_of_ne he
        simp [upsertEntry, hlt, he, List.lookup_cons, hb, ih hr]

theorem lookup_upsertEntry_ne {k x : κ} {f : Option α → α} {entries : List (κ × α)}
    (hne : x ≠ k) : (upsertEntry k f entries).lookup x = entries.lookup x := by
  induction entries with
  | nil => simp [upsertEntry, hne]
  | cons e rest ih => grind [upsertEntry]

@[simp] theorem get?_empty {k : κ} : (∅ : Table κ α).get? k = none := rfl

@[simp] theorem get?_upsert_self {t : Table κ α} {k : κ} {f : Option α → α} :
    (t.upsert k f).get? k = some (f (t.get? k)) :=
  lookup_upsertEntry_self t.ascending

theorem get?_upsert_ne {t : Table κ α} {k x : κ} {f : Option α → α} (h : x ≠ k) :
    (t.upsert k f).get? x = t.get? x :=
  lookup_upsertEntry_ne h

@[simp] theorem get?_insert_self {t : Table κ α} {k : κ} {a : α} :
    (t.insert k a).get? k = some a :=
  get?_upsert_self

theorem get?_insert_ne {t : Table κ α} {k x : κ} {a : α} (h : x ≠ k) :
    (t.insert k a).get? x = t.get? x :=
  get?_upsert_ne h

omit [Key κ] in
theorem lookup_mapValues {f : α → β} {k : κ} {entries : List (κ × α)} :
    (entries.map fun e => (e.1, f e.2)).lookup k = (entries.lookup k).map f := by
  induction entries with
  | nil => rfl
  | cons e rest ih => grind

@[simp] theorem get?_mapValues {f : α → β} {t : Table κ α} {k : κ} :
    (t.mapValues f).get? k = (t.get? k).map f :=
  lookup_mapValues

omit [Key κ] in
theorem mem_of_lookup {k : κ} {a : α} {entries : List (κ × α)}
    (h : entries.lookup k = some a) : (k, a) ∈ entries := by
  obtain ⟨front, back, rfl, _⟩ := List.lookup_eq_some_iff.mp h
  simp

theorem lookup_of_mem {k : κ} {a : α} {entries : List (κ × α)}
    (h : (entries.map Prod.fst).Pairwise Before) (hm : (k, a) ∈ entries) :
    entries.lookup k = some a := by
  obtain ⟨front, back, rfl⟩ := List.append_of_mem hm
  refine List.lookup_eq_some_iff.mpr ⟨front, back, rfl, ?_⟩
  intro e he
  rw [List.map_append] at h
  have hb : Before e.1 k :=
    (List.pairwise_append.mp h).2.2 e.1 (List.mem_map_of_mem he) k List.mem_cons_self
  exact bne_iff_ne.mpr hb.ne.symm

/-- Looking a key up and finding its entry in the listing are the same. -/
theorem get?_eq_some_iff {t : Table κ α} {k : κ} {a : α} :
    t.get? k = some a ↔ (k, a) ∈ t.entries :=
  ⟨mem_of_lookup, lookup_of_mem t.ascending⟩

end Table

end CharGrammar
