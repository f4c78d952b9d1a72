import CharGrammar.Proofs.JoinedRules
import CharGrammar.RuleFile.Load

namespace CharGrammar

/-- The same thing at another place. -/
def Located.move {α : Type} (f : Location → Location) (x : Located α) : Located α :=
  ⟨f x.location, x.item⟩

namespace RuleFile

def Definition.move (f : Location → Location) (d : Definition) : Definition :=
  { d with location := f d.location }

def moveReading (f : Location → Location) :
    Except (Located RuleFault) (Located Rule) → Except (Located RuleFault) (Located Rule)
  | .ok rule => .ok (rule.move f)
  | .error fault => .error (fault.move f)

/-- An answer with its faults at other places. -/
def moved (f : Location → Location) (answer : Except RuleFaults Grammar) :
    Except RuleFaults Grammar :=
  answer.mapError (List.map (Located.move f))

variable {f : Location → Location} {rules : List (Located Rule)} {file file' : String}

namespace Definitions

variable {definitions : Definitions} {start x : Char}

def move (f : Location → Location) (definitions : Definitions) : Definitions :=
  definitions.mapValues (Definition.move f)

theorem rulesFor_move :
    rulesFor x (rules.map (Located.move f)) = (rulesFor x rules).map (Located.move f) := by
  rw [rulesFor, List.filter_map]
  rfl

theorem ofRules_move : ofRules (rules.map (Located.move f)) = (ofRules rules).move f := by
  apply Table.ext_get?
  intro x
  rw [move, Table.get?_mapValues, get?_ofRules, get?_ofRules, bodyFor, rulesFor_move,
    List.head?_map, List.flatMap_map, Option.map_map, Option.map_map]
  rfl

theorem parts_move : (definitions.move f).parts start = definitions.parts start := by
  rw [parts, parts, move, Table.keys_mapValues, Table.values_mapValues, Table.mapValues_mapValues,
    List.flatMap_map]
  rfl

theorem undefinedUses_move :
    (definitions.move f).undefinedUses = definitions.undefinedUses.map (Located.move f) := by
  simp [undefinedUses, move, Table.values_mapValues, List.map_flatMap, List.flatMap_map,
    Function.comp_def, Definition.move, Located.move]

end Definitions

open Definitions

/-- Rules at other places join to the same grammar, or to the same faults at those places. -/
theorem grammarOf_move (hf : f (.inFile file 0) = .inFile file' 0) :
    grammarOf file' (rules.map (Located.move f)) = moved f (grammarOf file rules) := by
  cases rules with
  | nil => simp [grammarOf, moved, Except.mapError, Located.move, hf]
  | cons first rest =>
    have hu : (ofRules ((first :: rest).map (Located.move f))).undefinedUses =
        (ofRules (first :: rest)).undefinedUses.map (Located.move f) := by
      rw [ofRules_move, undefinedUses_move]
    by_cases hn : (ofRules (first :: rest)).undefinedUses = []
    · have hn' : (ofRules ((first :: rest).map (Located.move f))).undefinedUses = [] := by
        rw [hu, hn, List.map_nil]
      rw [List.map_cons] at hn' ⊢
      rw [grammarOf_cons hn, grammarOf_cons hn', ← List.map_cons, ofRules_move, parts_move]
      have hhead : (first.move f).item = first.item := rfl
      rw [hhead]
      cases Grammar.ofParts ((ofRules (first :: rest)).parts first.item.head) with
      | ok g => rfl
      | error e => simp [moved, Except.mapError, Located.move, hf]
    · have hn' : (ofRules ((first :: rest).map (Located.move f))).undefinedUses ≠ [] := by
        rw [hu]
        exact fun he => hn (List.map_eq_nil_iff.mp he)
      rw [grammarOf_of_undefinedUses hn, grammarOf_of_undefinedUses hn', hu]
      rfl

theorem faultsOf_move {readings : List (Except (Located RuleFault) (Located Rule))} :
    faultsOf (readings.map (moveReading f)) = (faultsOf readings).map (Located.move f) := by
  rw [faultsOf, faultsOf, List.filterMap_map, List.map_filterMap]
  congr 1
  funext reading
  cases reading <;> rfl

theorem rulesOf_move {readings : List (Except (Located RuleFault) (Located Rule))} :
    rulesOf (readings.map (moveReading f)) = (rulesOf readings).map (Located.move f) := by
  rw [rulesOf, rulesOf, List.filterMap_map, List.map_filterMap]
  congr 1
  funext reading
  cases reading <;> rfl

variable {line : Option (List Char)} {lines lines' front back : List (Option (List Char))}
  {n n' : Nat}

/-- The readings of lines that are numbered from `n`. -/
def readFrom (file : String) (n : Nat) (lines : List (Option (List Char))) :
    List (Except (Located RuleFault) (Located Rule)) :=
  (lines.zipIdx n).filterMap fun (line, number) => readLine? file number line

theorem readLines_eq : readLines file lines = readFrom file 1 lines := rfl

theorem readFrom_cons :
    readFrom file n (line :: lines) =
      (readLine? file n line).toList ++ readFrom file (n + 1) lines := by
  rw [readFrom, List.zipIdx_cons, List.filterMap_cons]
  dsimp only
  cases readLine? file n line <;> rfl

theorem readFrom_append :
    readFrom file n (front ++ back) =
      readFrom file n front ++ readFrom file (n + front.length) back := by
  rw [readFrom, List.zipIdx_append, List.filterMap_append]
  rfl

theorem readLine?_move (h0 : f (.inFile file 0) = .inFile file' 0)
    (hn : f (.inFile file n) = .inFile file' n') :
    readLine? file' n' line = (readLine? file n line).map (moveReading f) := by
  cases line with
  | none => simp [readLine?, moveReading, Located.move, h0]
  | some line =>
    simp only [readLine?]
    cases statesRule line with
    | false => rfl
    | true => cases Rule.read line <;> simp [moveReading, Located.move, hn]

/-- Lines with other numbers are read alike at their new places. -/
theorem readFrom_move (h0 : f (.inFile file 0) = .inFile file' 0)
    (hn : ∀ i < lines.length, f (.inFile file (n + i)) = .inFile file' (n' + i)) :
    readFrom file' n' lines = (readFrom file n lines).map (moveReading f) := by
  induction lines generalizing n n' with
  | nil => rfl
  | cons line rest ih =>
    have hrest : readFrom file' (n' + 1) rest =
        (readFrom file (n + 1) rest).map (moveReading f) := by
      apply ih
      intro i hi
      have hs := hn (i + 1) (by simpa using hi)
      rwa [Nat.add_right_comm n, Nat.add_right_comm n', Nat.add_assoc n, Nat.add_assoc n']
    have hline : readLine? file' n' line = (readLine? file n line).map (moveReading f) :=
      readLine?_move h0 (hn 0 (by simp))
    rw [readFrom_cons, readFrom_cons, hline, hrest, List.map_append]
    cases readLine? file n line <;> rfl

/-- What lines come to depends on their readings, and moves with them. -/
theorem ofLines_move (h0 : f (.inFile file 0) = .inFile file' 0)
    (hr : readLines file' lines' = (readLines file lines).map (moveReading f)) :
    ofLines file' lines' = moved f (ofLines file lines) := by
  rw [ofLines, ofLines, hr, faultsOf_move, rulesOf_move, grammarOf_move h0]
  cases faultsOf (readLines file lines) <;> rfl

end RuleFile

end CharGrammar
