import CharGrammar.Tree

namespace CharGrammar

namespace Scan.Kind

theorem toList_text_terminal {c : Char} :
    (terminal c).text.toList = "Terminal(".toList ++ c :: ")".toList := by
  have h : (terminal c).text = "Terminal(" ++ String.singleton c ++ ")" := rfl
  rw [h, String.toList_append, String.toList_append, String.toList_singleton, List.append_assoc]
  rfl

/-- A kind can be told from its text, whatever comes after it. -/
theorem eq_of_text_append {kind kind' : Kind} {front back : List Char}
    (h : kind.text.toList ++ front = kind'.text.toList ++ back) : kind = kind' ∧ front = back := by
  cases kind with
  | terminal c =>
    rw [toList_text_terminal] at h
    cases kind' with
    | terminal d =>
      rw [toList_text_terminal, List.append_assoc, List.append_assoc] at h
      obtain ⟨rfl, hrest⟩ := List.cons.inj (List.append_cancel_left h)
      exact ⟨rfl, List.append_cancel_left hrest⟩
    | ending => simp [text] at h
  | ending =>
    cases kind' with
    | terminal d =>
      rw [toList_text_terminal] at h
      simp [text] at h
    | ending => exact ⟨rfl, List.append_cancel_left h⟩

end Scan.Kind

namespace Node

/-- No literal of the tree holds a line end, as the character of its kind or in its value. -/
inductive OneLined : Node → Prop
  | program {nodes : List Node} (each : ∀ node ∈ nodes, OneLined node) : OneLined (.program nodes)
  | block {nodes : List Node} (each : ∀ node ∈ nodes, OneLined node) : OneLined (.block nodes)
  | literal {kind : Scan.Kind} {value : String} (kind_ne : kind ≠ .terminal '\n')
      (not_mem_value : '\n' ∉ value.toList) : OneLined (.literal kind value)

/-- What the line of a node says. -/
def title : Node → List Char
  | program _ => "Program:".toList
  | block _ => "Block:".toList
  | literal kind value => literalLine kind value

@[simp] theorem title_program {nodes : List Node} : (program nodes).title = "Program:".toList := rfl

@[simp] theorem title_block {nodes : List Node} : (block nodes).title = "Block:".toList := rfl

@[simp] theorem title_literal {kind : Scan.Kind} {value : String} :
    (literal kind value).title = literalLine kind value := rfl

theorem literalLine_eq {kind : Scan.Kind} {value : String} :
    literalLine kind value = "Literal: ".toList ++
      (kind.text.toList ++ (" => '".toList ++ (value.toList ++ "'".toList))) := by
  simp only [← List.append_assoc]
  rfl

def children : Node → List Node
  | program nodes => nodes
  | block nodes => nodes
  | literal _ _ => []

/-- The text does not begin with a line at this depth or further in. -/
def EndsBefore (depth : Nat) (text : List Char) : Prop :=
  ¬ List.replicate (2 * depth) ' ' <+: text

/-- The node can be told from its print, and the print from what comes after it, if that is not
set in further. -/
def Legible (a : Node) : Prop :=
  ∀ {b : Node} {depth : Nat} {front back : List Char}, a.OneLined → b.OneLined →
    EndsBefore (depth + 1) front → EndsBefore (depth + 1) back →
    renderAt depth a ++ front = renderAt depth b ++ back → a = b ∧ front = back

variable {a b : Node} {depth : Nat} {line line' front back : List Char}

theorem children_induction {P : Node → Prop}
    (step : ∀ a, (∀ child ∈ a.children, P child) → P a) (a : Node) : P a :=
  step a fun child _ => children_induction step child
termination_by sizeOf a
decreasing_by
  next h =>
    cases a with
    | program nodes | block nodes =>
      have hlt := List.sizeOf_lt_of_mem h
      simp only [children] at hlt
      simp only [program.sizeOf_spec, block.sizeOf_spec]
      omega
    | literal kind value => cases h

theorem renderAt_eq :
    renderAt depth a = indented depth a.title ++ renderAll (depth + 1) a.children := by
  cases a with
  | program nodes => rw [renderAt, title_program, children]
  | block nodes => rw [renderAt, title_block, children]
  | literal kind value => rw [renderAt, title_literal, children, renderAll, List.append_nil]

theorem head?_title : a.title.head? = match a with
    | program _ => some 'P'
    | block _ => some 'B'
    | literal _ _ => some 'L' := by
  cases a <;> rfl

theorem OneLined.of_mem_children (h : a.OneLined) : ∀ child ∈ a.children, child.OneLined := by
  cases h with
  | program each => exact each
  | block each => exact each
  | literal => exact nofun

theorem OneLined.not_mem_title (h : a.OneLined) : '\n' ∉ a.title := by
  cases h with
  | program => simp
  | block => simp
  | @literal kind value hk hv =>
    have hkind : '\n' ∉ kind.text.toList := by
      cases kind with
      | ending => decide
      | terminal c =>
        rw [Scan.Kind.toList_text_terminal]
        have hc : '\n' ≠ c := fun he => hk (he ▸ rfl)
        simp [hc]
    rw [title_literal, literalLine_eq]
    simp [hkind, hv]

/-- A print can be cut after its first line. -/
theorem eq_of_indented_append (hl : '\n' ∉ line) (hl' : '\n' ∉ line')
    (h : indented depth line ++ front = indented depth line' ++ back) :
    line = line' ∧ front = back := by
  simp only [indented, List.append_assoc, List.singleton_append, List.append_cancel_left_eq] at h
  have hcut := congrArg (List.splitOn '\n') h
  rw [List.splitOn_append_cons_self_of_not_mem hl,
    List.splitOn_append_cons_self_of_not_mem hl'] at hcut
  obtain ⟨rfl, _⟩ := List.cons.inj hcut
  exact ⟨rfl, (List.cons.inj (List.append_cancel_left h)).2⟩

theorem literalLine_injective {kind kind' : Scan.Kind} {value value' : String}
    (h : literalLine kind value = literalLine kind' value') : kind = kind' ∧ value = value' := by
  rw [literalLine_eq, literalLine_eq] at h
  obtain ⟨hk, hrest⟩ := Scan.Kind.eq_of_text_append (List.append_cancel_left h)
  have hv := List.append_cancel_right (List.append_cancel_left hrest)
  exact ⟨hk, String.toList_inj.mp hv⟩

theorem eq_of_title (ht : a.title = b.title) (hc : a.children = b.children) : a = b := by
  have hhead := congrArg List.head? ht
  rw [head?_title, head?_title] at hhead
  cases a with
  | program nodes =>
    cases b with
    | program others => exact congrArg program hc
    | block | literal => simp at hhead
  | block nodes =>
    cases b with
    | block others => exact congrArg block hc
    | program | literal => simp at hhead
  | literal kind value =>
    cases b with
    | literal kind' value' =>
      obtain ⟨rfl, rfl⟩ := literalLine_injective ht
      rfl
    | program | block => simp at hhead

theorem spaces_succ :
    List.replicate (2 * (depth + 1)) ' ' = List.replicate (2 * depth) ' ' ++ [' ', ' '] := by
  rw [Nat.mul_succ, ← List.replicate_append_replicate]
  rfl

theorem EndsBefore.succ (h : EndsBefore depth front) : EndsBefore (depth + 1) front := by
  rw [EndsBefore, spaces_succ]
  exact fun hp => h ((List.prefix_append _ _).trans hp)

theorem not_endsBefore_renderAt : ¬ EndsBefore depth (renderAt depth a ++ front) := by
  rw [renderAt_eq, indented]
  simp only [List.append_assoc]
  exact fun hends => hends (List.prefix_append _ _)

theorem endsBefore_renderAt : EndsBefore (depth + 1) (renderAt depth a ++ front) := by
  rw [EndsBefore, spaces_succ, renderAt_eq, indented]
  simp only [List.append_assoc, List.prefix_append_right_inj]
  intro hp
  obtain ⟨rest, hrest⟩ := hp
  have hhead := congrArg List.head? hrest
  rw [List.head?_append, List.head?_append, head?_title] at hhead
  cases a <;> simp at hhead

theorem endsBefore_renderAll {nodes : List Node} (h : EndsBefore depth front) :
    EndsBefore (depth + 1) (renderAll depth nodes ++ front) := by
  cases nodes with
  | nil => exact h.succ
  | cons node rest =>
    rw [renderAll, List.append_assoc]
    exact endsBefore_renderAt

/-- Trees one below the other can be told from their prints, if each of them can. -/
theorem eq_of_renderAll {nodes others : List Node} (hlegible : ∀ node ∈ nodes, node.Legible)
    (hnodes : ∀ node ∈ nodes, node.OneLined) (hothers : ∀ node ∈ others, node.OneLined)
    (hfront : EndsBefore depth front) (hback : EndsBefore depth back)
    (h : renderAll depth nodes ++ front = renderAll depth others ++ back) :
    nodes = others ∧ front = back := by
  induction nodes generalizing others with
  | nil =>
    cases others with
    | nil => exact ⟨rfl, h⟩
    | cons other others =>
      rw [renderAll, renderAll, List.append_assoc, List.nil_append] at h
      exact absurd (h ▸ hfront) not_endsBefore_renderAt
  | cons node nodes ih =>
    cases others with
    | nil =>
      rw [renderAll, renderAll, List.append_assoc, List.nil_append] at h
      exact absurd (h ▸ hback) not_endsBefore_renderAt
    | cons other others =>
      rw [renderAll, renderAll, List.append_assoc, List.append_assoc] at h
      obtain ⟨rfl, hrest⟩ := hlegible node List.mem_cons_self (hnodes node List.mem_cons_self)
        (hothers other List.mem_cons_self) (endsBefore_renderAll hfront)
        (endsBefore_renderAll hback) h
      obtain ⟨rfl, hlast⟩ := ih (List.forall_mem_cons.mp hlegible).2
        (List.forall_mem_cons.mp hnodes).2 (List.forall_mem_cons.mp hothers).2 hrest
      exact ⟨rfl, hlast⟩

theorem legible (a : Node) : a.Legible := by
  induction a using children_induction with
  | step a ih =>
    intro b depth front back ha hb hfront hback h
    rw [renderAt_eq, renderAt_eq, List.append_assoc, List.append_assoc] at h
    obtain ⟨ht, hrest⟩ := eq_of_indented_append ha.not_mem_title hb.not_mem_title h
    obtain ⟨hc, hlast⟩ :=
      eq_of_renderAll ih ha.of_mem_children hb.of_mem_children hfront hback hrest
    exact ⟨eq_of_title ht hc, hlast⟩

/-- Trees that are printed alike are equal, if none of their literals holds a line end. -/
theorem eq_of_text_eq {a b : Node} (ha : a.OneLined) (hb : b.OneLined) (h : a.text = b.text) :
    a = b := by
  have hr : renderAt 0 a ++ [] = renderAt 0 b ++ [] := congrArg (· ++ []) (String.ofList_inj.mp h)
  have hend : EndsBefore 1 [] := by simp [EndsBefore]
  exact (legible a ha hb hend hend hr).1

/-- The literals say what passes for a quotation and for a line of a tree. -/
def misleading : Node :=
  .program [.block [.literal (.terminal '=') "' => '", .literal (.terminal 'B') "  Block:"]]

def misleadingTokens : List Scan.Token :=
  [⟨.terminal '=', "' => '", 1, 1⟩, ⟨.terminal 'B', "  Block:", 2, 5⟩, ⟨.ending, "", 3, 1⟩]

theorem oneLined_misleading : misleading.OneLined := by
  refine .program (List.forall_mem_singleton.mpr (.block (List.forall_mem_cons.mpr ⟨?_, ?_⟩)))
  · exact .literal (by decide) (by decide)
  · exact List.forall_mem_singleton.mpr (.literal (by decide) (by decide))

theorem misleading_known :
    (ofTokens misleadingTokens).OneLined ∧ misleading.OneLined ∧
    (ofTokens misleadingTokens).text = misleading.text ∧
    ofTokens misleadingTokens = misleading :=
  ⟨oneLined_misleading, oneLined_misleading, rfl,
    eq_of_text_eq oneLined_misleading oneLined_misleading rfl⟩

/-- A line end in a value lets it pass for another literal. -/
example : (program [.literal .ending "'\n  Literal: Eof => '"]).text =
    (program [.literal .ending "", .literal .ending ""]).text := by decide

end Node

end CharGrammar
