import CharGrammar.Automaton.Run
import CharGrammar.Proofs.Edges
import CharGrammar.Proofs.Expansions
import CharGrammar.Tree

namespace CharGrammar

open Text (isBlank)

namespace Scan

variable {alphabet : CharSet} {line column : Nat} {text : List Char} {tokens : List Token}

/-- The characters of a text that become tokens. -/
def solid (text : List Char) : List Char := text.filter fun c => !isBlank c

/-- What a token says, wherever it stands. -/
def Token.content (t : Token) : Kind × String := (t.kind, t.value)

theorem solid_eq_self_iff : solid text = text ↔ ∀ c ∈ text, isBlank c = false := by
  simp [solid, List.filter_eq_self]

theorem solid_cons_of_isBlank {c : Char} (h : isBlank c = true) : solid (c :: text) = solid text :=
  List.filter_cons_of_neg (by simp [h])

theorem solid_cons_of_not_isBlank {c : Char} (h : ¬ isBlank c = true) :
    solid (c :: text) = c :: solid text :=
  List.filter_cons_of_pos (by simpa using h)

theorem exists_tokensFrom (h : ∀ c ∈ text, isBlank c = false → c ∈ alphabet) :
    ∃ tokens, tokensFrom alphabet line column text = .ok tokens := by
  induction text generalizing line column with
  | nil => exact ⟨_, rfl⟩
  | cons c rest ih =>
    obtain ⟨hc, hrest⟩ := List.forall_mem_cons.mp h
    rw [tokensFrom]
    split
    · exact ih hrest
    · split
      · exact ih hrest
      · next hb =>
        have hr : ∃ tokens, tokensFrom alphabet line (column + 1) rest = .ok tokens := ih hrest
        obtain ⟨tokens, ht⟩ := hr
        rw [if_pos (hc (eq_false_of_ne_true hb)), ht]
        exact ⟨_, rfl⟩

/-- There is a token for each character that is not blank, and one for the end. -/
theorem contents_of_tokensFrom (h : tokensFrom alphabet line column text = .ok tokens) :
    tokens.map Token.content =
      (solid text).map (fun c => (.terminal c, String.singleton c)) ++ [(.ending, "")] := by
  induction text generalizing line column tokens with
  | nil =>
    cases h
    rfl
  | cons c rest ih =>
    rw [tokensFrom] at h
    split at h
    · next hn =>
      rw [solid_cons_of_isBlank (hn ▸ rfl)]
      exact ih h
    · split at h
      · next hb =>
        rw [solid_cons_of_isBlank hb]
        exact ih h
      · next hb =>
        split at h
        · cases hr : tokensFrom alphabet line (column + 1) rest with
          | error fault =>
            rw [hr] at h
            cases h
          | ok others =>
            rw [hr] at h
            cases h
            rw [List.map_cons, ih hr, solid_cons_of_not_isBlank hb]
            rfl
        · cases h

theorem join_values (h : Scan.tokens alphabet text = .ok tokens) :
    String.join (tokens.map Token.value) = String.ofList (solid text) := by
  have hv : tokens.map Token.value = (solid text).map String.singleton ++ [""] := by
    have hc := congrArg (List.map Prod.snd) (contents_of_tokensFrom h)
    simpa [Function.comp_def, Token.content] using hc
  rw [hv, ← String.toList_inj, String.toList_join, String.toList_ofList]
  simp [List.flatMap_map]

end Scan

namespace Node

mutual

/-- The values of the literals in a tree, from left to right. -/
def values : Node → List String
  | program children => valuesOfAll children
  | block children => valuesOfAll children
  | literal _ value => [value]

def valuesOfAll : List Node → List String
  | [] => []
  | node :: rest => values node ++ valuesOfAll rest

end

theorem valuesOfAll_literals (tokens : List Scan.Token) :
    valuesOfAll (tokens.map fun t => .literal t.kind t.value) = tokens.map (·.value) := by
  induction tokens with
  | nil => rfl
  | cons t rest ih =>
    rw [List.map_cons, valuesOfAll, values, ih, List.map_cons, List.singleton_append]

/-- The tree of a text holds a literal for each of its tokens but the ending. -/
theorem values_ofTokens {alphabet : CharSet} {text : List Char} {tokens : List Scan.Token}
    (h : Scan.tokens alphabet text = .ok tokens) :
    (ofTokens tokens).values = (Scan.solid text).map String.singleton := by
  obtain ⟨front, back, rfl, hf, hb⟩ := List.map_eq_append_iff.mp (Scan.contents_of_tokensFrom h)
  obtain ⟨ending, rfl, he⟩ := List.map_eq_singleton_iff.mp hb
  have hfront : ∀ t ∈ front, t.kind ≠ .ending := by
    intro t ht hk
    obtain ⟨c, _, hc⟩ := List.mem_map.mp (hf ▸ List.mem_map_of_mem ht)
    have hkind : .terminal c = t.kind := congrArg Prod.fst hc
    rw [hk] at hkind
    cases hkind
  have hending : ending.kind = .ending := congrArg Prod.fst he
  have htaken : (front ++ [ending]).takeWhile (·.kind ≠ .ending) = front := by
    rw [List.takeWhile_append_of_pos (by simpa using hfront)]
    simp [hending]
  have hv := congrArg (List.map Prod.snd) hf
  rw [ofTokens, htaken, values, valuesOfAll, values, valuesOfAll_literals, valuesOfAll,
    List.append_nil]
  simpa [Function.comp_def, Scan.Token.content] using hv

end Node

namespace Automaton

/-- Only a symbol of the word can be outside the alphabet. -/
theorem mem_of_outsideAlphabet {a : Automaton} {q symbol : Char} {position n : Nat}
    {word : List Char} (h : (a.runFrom q n word).outcome = .outsideAlphabet position symbol) :
    symbol ∈ word ∧ symbol ∉ a.alphabet := by
  induction word generalizing q n with
  | nil =>
    unfold runFrom at h
    dsimp only at h
    split at h <;> cases h
  | cons t rest ih =>
    unfold runFrom at h
    split at h
    · next ht =>
      cases h
      exact ⟨List.mem_cons_self, ht⟩
    · cases hn : a.next? q t with
      | none =>
        rw [hn] at h
        cases h
      | some r =>
        rw [hn] at h
        obtain ⟨hm, ha⟩ := ih h
        exact ⟨List.mem_cons_of_mem _ hm, ha⟩

end Automaton

namespace Grammar

variable {σ : Type} [WordSource σ] {g : Grammar} {limits : Limits} {fuel : Nat} {start : Char}
  {source rest : σ} {word : List Char}

/-- Generated words are spelled with terminals. -/
theorem terminals_of_generate (h : g.generate fuel start limits source = some (.ok word, rest)) :
    ∀ c ∈ word, c ∈ g.terminals := by
  obtain ⟨taken, he⟩ := generate_eq_ok_iff.mp h
  obtain ⟨hs, hr, hc, _⟩ := expandSteps_eq_ok_iff.mp he
  have hresult := hr.derives.result_eq
  rw [Form.chars_terminals] at hresult
  rw [← hresult]
  exact (hr.derives.complete hc hs).result_terminal

/-- A word that a grammar generates can be cut into tokens of its terminals. Their values, like the
values in the tree made of them, spell the word without its blanks, and so the word itself exactly
if it has none. No automaton of the grammar finds a symbol outside its alphabet in the word. -/
theorem generated_words_scanned
    (h : g.generate fuel start limits source = some (.ok word, rest)) :
    (∃ tokens, Scan.tokens g.terminals word = .ok tokens ∧
      String.join (tokens.map (·.value)) = String.ofList (word.filter fun c => !isBlank c) ∧
      String.join (Node.ofTokens tokens).values =
        String.ofList (word.filter fun c => !isBlank c) ∧
      (String.join (tokens.map (·.value)) = String.ofList word ↔
        ∀ c ∈ word, isBlank c = false)) ∧
    ∀ policy a, (Automaton.ofGrammar g policy).value = .ok a →
      ∀ position symbol, (a.run word).outcome ≠ .outsideAlphabet position symbol := by
  have hw := terminals_of_generate h
  constructor
  · obtain ⟨tokens, ht⟩ : ∃ tokens, Scan.tokens g.terminals word = .ok tokens :=
      Scan.exists_tokensFrom fun c hc _ => hw c hc
    refine ⟨tokens, ht, Scan.join_values ht, ?_, ?_⟩
    · rw [Node.values_ofTokens ht, ← String.toList_inj, String.toList_join]
      simp [List.flatMap_map, Scan.solid]
    · rw [Scan.join_values ht, String.ofList_inj, Scan.solid_eq_self_iff]
  · intro policy a ha position symbol ho
    obtain ⟨hm, hn⟩ := Automaton.mem_of_outsideAlphabet ho
    rw [Automaton.alphabet_eq ha] at hn
    exact hn (hw symbol hm)

/-- The rule `S = " "S | a`. -/
def spaced : Grammar where
  nonterminals := .ofList ['S']
  terminals := .ofList [' ', 'a']
  rules := .ofList [('S', [[.terminal ' ', .nonterminal 'S'], [.terminal 'a']])]
  start := 'S'
  valid := Parts.fault?_eq_none_iff.mp (by decide)

theorem spaced_word_scanned :
    ∃ tokens a, Scan.tokens spaced.terminals [' ', 'a'] = .ok tokens ∧
      String.join (tokens.map (·.value)) = String.ofList ['a'] ∧
      String.join (Node.ofTokens tokens).values = String.ofList ['a'] ∧
      (Automaton.ofGrammar spaced .reject).value = .ok a ∧
      ∀ position symbol, (a.run [' ', 'a']).outcome ≠ .outsideAlphabet position symbol := by
  have hg : spaced.generate 3 'S' .unbounded (Generator.given [0, 0x80000000]) =
      some (.ok [' ', 'a'], .given []) := rfl
  obtain ⟨⟨tokens, ht, hv, htree, _⟩, hrun⟩ := generated_words_scanned hg
  have hok : (Automaton.ofGrammar spaced .reject).value.isOk = true := by decide
  cases ha : (Automaton.ofGrammar spaced .reject).value with
  | error e =>
    rw [ha] at hok
    cases hok
  | ok a => exact ⟨tokens, a, ht, hv, htree, rfl, hrun .reject a ha⟩

end Grammar

end CharGrammar
