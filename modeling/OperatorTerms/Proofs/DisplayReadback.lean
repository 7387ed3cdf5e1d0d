/-
Module: OperatorTerms.Proofs.DisplayReadback
Layer: Proofs
Purpose: The compact form says all about the labels and operands. Labels without its punctuation end
  where a mark stands or the text ends, and which mark it is tells whether operands follow, whether
  another operand follows, or whether the operands are at an end. So the compact form can be read in
  one way only, even if it goes on behind a term. The kinds do not show, unless labels come from
  codes, for then they begin with the letter of the kind or, in a placeholder, with one that no kind
  has.
Imports: OperatorTerms.Proofs.DrawingReadback
Main exports: Outline, Term.outline, Outline.term, Unmarked, Term.outline_of_display,
  Term.Formed.term_outline, outline_of_display_eq
-/
import OperatorTerms.Proofs.DrawingReadback

namespace OperatorTerms

/-- A term without its kinds: labels and operands. -/
inductive Outline where
  | node (label : String) (operands : List Outline)

namespace Term

mutual

/-- The labels and operands of a term. -/
def outline : Term → Outline
  | node _ label operands => .node label (outlineAll operands)

/-- The labels and operands of several terms. -/
def outlineAll : List Term → List Outline
  | [] => []
  | operand :: rest => operand.outline :: outlineAll rest

end

/-- Whether a character is a mark of the compact form. -/
def isMark (c : Char) : Bool := c == '(' || c == ')' || c == ','

end Term

namespace Outline

mutual

/-- The term with the given labels and operands in which every label shows the kind. -/
def term : Outline → Term
  | node label operands => .node (Kind.ofLabel label) label (termAll operands)

/-- The terms with the given labels and operands in which every label shows the kind. -/
def termAll : List Outline → List Term
  | [] => []
  | operand :: rest => operand.term :: termAll rest

end

end Outline

/-- A label that has no mark of the compact form in it. It may be empty, and have blanks in it. -/
def Unmarked (label : String) : Prop := ∀ c ∈ label.toList, Term.isMark c = false

instance (label : String) : Decidable (Unmarked label) :=
  decidable_of_iff ((label.toList.any Term.isMark) = false) (by simp [Unmarked])

namespace Term

/-! ### Labels and what follows them -/

/-- What may follow a term: nothing, the next operand, or the end of the operands. -/
def MayFollow (rest : List Char) : Prop := ∀ c ∈ rest.head?, c = ')' ∨ c = ','

variable {label label' : String} {rest rest' : List Char}

theorem MayFollow.isMark (h : MayFollow rest) : ∀ c ∈ rest.head?, isMark c = true := by
  intro c hc
  rcases h c hc with rfl | rfl <;> rfl

theorem MayFollow.ne_opening (h : MayFollow rest) (others : List Char) : rest ≠ '(' :: others := by
  rintro rfl
  have := h '(' rfl
  contradiction

/-- A label ends where the first mark stands. -/
theorem label_unique (h : Unmarked label) (h' : Unmarked label')
    (hrest : ∀ c ∈ rest.head?, isMark c = true) (hrest' : ∀ c ∈ rest'.head?, isMark c = true)
    (heq : label.toList ++ rest = label'.toList ++ rest') : label = label' ∧ rest = rest' := by
  have htake {label : String} {rest : List Char} (hlabel : Unmarked label)
      (hrest : ∀ c ∈ rest.head?, isMark c = true) :
      (label.toList ++ rest).takeWhile (fun c => !isMark c) = label.toList := by
    rw [List.takeWhile_append_of_pos fun c hc => by simp [hlabel c hc]]
    cases rest with
    | nil => simp
    | cons c others => simp [hrest c rfl]
  have hlabels : label.toList = label'.toList := by
    rw [← htake h hrest, ← htake h' hrest', heq]
  rw [hlabels] at heq
  exact ⟨String.toList_inj.1 hlabels, List.append_cancel_left heq⟩

theorem mayFollow_displayRest (terms : List Term) (rest : List Char) :
    MayFollow ((displayRest terms).toList ++ ')' :: rest) := by
  cases terms with
  | nil => simp [MayFollow, displayRest]
  | cons first others => simp [MayFollow, displayRest]

/-! ### Terms and what follows them -/

/-- The compact form is the label and, if there are operands, their compact forms in parentheses. -/
theorem toList_display_append (kind : Kind) (label : String) (first : Term) (others : List Term)
    (rest : List Char) :
    (node kind label (first :: others)).display.toList ++ rest =
      label.toList ++
        '(' :: (first.display.toList ++ ((displayRest others).toList ++ ')' :: rest)) := by
  simp [display]

theorem toList_displayRest_append (first : Term) (others : List Term) (rest : List Char) :
    (displayRest (first :: others)).toList ++ ')' :: rest =
      ',' :: ' ' :: (first.display.toList ++ ((displayRest others).toList ++ ')' :: rest)) := by
  simp [displayRest]

mutual

/-- A term can be read off its compact form in one way only, whatever follows. -/
theorem outline_of_display : ∀ {term term' : Term} {depth depth' : Nat} {rest rest' : List Char},
    (∀ entry ∈ term.entries depth, Unmarked entry.label) →
      (∀ entry ∈ term'.entries depth', Unmarked entry.label) → MayFollow rest → MayFollow rest' →
        term.display.toList ++ rest = term'.display.toList ++ rest' →
          term.outline = term'.outline ∧ rest = rest'
  | node _ label [], node _ label' [], _, _, rest, rest', h, h', hrest, hrest', heq => by
      simp only [entries, List.forall_mem_singleton] at h h'
      obtain ⟨rfl, rfl⟩ := label_unique h h' hrest.isMark hrest'.isMark heq
      exact ⟨rfl, rfl⟩
  | node _ label [], node _ label' (first' :: others'), _, _, rest, rest', h, h', hrest, _,
      heq => by
      simp only [entries, List.forall_mem_singleton, List.forall_mem_append,
        List.forall_mem_cons] at h h'
      rw [toList_display_append] at heq
      obtain ⟨-, hparenthesis⟩ := label_unique h h'.2.1 hrest.isMark (by simp [isMark]) heq
      exact absurd hparenthesis (hrest.ne_opening _)
  | node _ label (first :: others), node _ label' [], _, _, rest, rest', h, h', _, hrest', heq => by
      simp only [entries, List.forall_mem_singleton, List.forall_mem_append,
        List.forall_mem_cons] at h h'
      rw [toList_display_append] at heq
      obtain ⟨-, hparenthesis⟩ := label_unique h.2.1 h' (by simp [isMark]) hrest'.isMark heq
      exact absurd hparenthesis.symm (hrest'.ne_opening _)
  | node _ label (first :: others), node _ label' (first' :: others'), _, _, rest, rest', h, h',
      _, _, heq => by
      simp only [entries, List.forall_mem_append, List.forall_mem_cons] at h h'
      obtain ⟨hfirst, hlabel, hothers⟩ := h
      obtain ⟨hfirst', hlabel', hothers'⟩ := h'
      rw [toList_display_append, toList_display_append] at heq
      obtain ⟨rfl, hoperands⟩ :=
        label_unique hlabel hlabel' (by simp [isMark]) (by simp [isMark]) heq
      obtain ⟨houtline, hrest⟩ := outline_of_display hfirst hfirst' (mayFollow_displayRest _ _)
        (mayFollow_displayRest _ _) (List.cons.inj hoperands).2
      obtain ⟨houtlines, rfl⟩ := outlineAll_of_displayRest hothers hothers' hrest
      rw [outline, outline, outlineAll, outlineAll, houtline, houtlines]
      exact ⟨rfl, rfl⟩

/-- Further operands can be read in one way only, up to the end of the operands. -/
theorem outlineAll_of_displayRest : ∀ {terms terms' : List Term} {depth depth' : Nat}
    {rest rest' : List Char},
    (∀ entry ∈ entriesAll depth terms, Unmarked entry.label) →
      (∀ entry ∈ entriesAll depth' terms', Unmarked entry.label) →
        (displayRest terms).toList ++ ')' :: rest = (displayRest terms').toList ++ ')' :: rest' →
          outlineAll terms = outlineAll terms' ∧ rest = rest'
  | [], [], _, _, rest, rest', _, _, heq => by
      exact ⟨rfl, (List.cons.inj heq).2⟩
  | [], first' :: others', _, _, rest, rest', _, _, heq => by
      rw [toList_displayRest_append] at heq
      exact absurd (List.cons.inj heq).1 (by decide)
  | first :: others, [], _, _, rest, rest', _, _, heq => by
      rw [toList_displayRest_append] at heq
      exact absurd (List.cons.inj heq).1 (by decide)
  | first :: others, first' :: others', _, _, rest, rest', h, h', heq => by
      simp only [entriesAll, List.forall_mem_append] at h h'
      rw [toList_displayRest_append, toList_displayRest_append] at heq
      obtain ⟨houtline, hrest⟩ := outline_of_display h.1 h'.1 (mayFollow_displayRest _ _)
        (mayFollow_displayRest _ _) (List.cons.inj (List.cons.inj heq).2).2
      obtain ⟨houtlines, rfl⟩ := outlineAll_of_displayRest h.2 h'.2 hrest
      rw [outlineAll, outlineAll, houtline, houtlines]
      exact ⟨rfl, rfl⟩

end

/-! ### Kinds -/

/-- Made of codes, a term can be told from its labels and operands alone. -/
theorem Formed.term_outline {codes : List String} {tokens : List Token} {term : Term}
    (htokens : Token.ofCodes codes = .ok tokens) (h : term.Formed tokens) :
    term.outline.term = term := by
  induction h with
  | atom hmade =>
      simp [outline, outlineAll, Outline.term, Outline.termAll, hmade.ofLabel_eq htokens]
  | unary hmade _ ih =>
      simp [outline, outlineAll, Outline.term, Outline.termAll, hmade.ofLabel_eq htokens, ih]
  | infixed hmade _ _ ihleft ihright =>
      simp [outline, outlineAll, Outline.term, Outline.termAll, hmade.ofLabel_eq htokens, ihleft,
        ihright]

end Term

/-- Two trees with the same compact form have the same labels and operands, if no label has a mark
    of the compact form in it. If the sequences come from codes, the kinds are the same as well. -/
theorem outline_of_display_eq {tokens tokens' : List Token} {tree tree' : Tree}
    (hparse : parse tokens = .ok tree) (hparse' : parse tokens' = .ok tree')
    (hlabels : ∀ id ∈ tree.postOrder, Unmarked (tree.node id).label)
    (hlabels' : ∀ id ∈ tree'.postOrder, Unmarked (tree'.node id).label)
    (hdisplay : tree.display = tree'.display) :
    tree.term.outline = tree'.term.outline ∧
      ∀ codes codes', Token.ofCodes codes = .ok tokens → Token.ofCodes codes' = .ok tokens' →
        tree.term = tree'.term := by
  have hentries {tokens : List Token} {tree : Tree} (hparse : parse tokens = .ok tree)
      (hlabels : ∀ id ∈ tree.postOrder, Unmarked (tree.node id).label) :
      ∀ entry ∈ tree.term.entries 1, Unmarked entry.label := by
    rw [← (whole_of_parse hparse).entries_eq, Tree.entries, List.forall_mem_map]
    exact hlabels
  have houtline : tree.term.outline = tree'.term.outline := by
    have hnothing : Term.MayFollow [] := by simp [Term.MayFollow]
    have hchars : tree.term.display.toList ++ [] = tree'.term.display.toList ++ [] := by
      rw [List.append_nil, List.append_nil]
      exact congrArg String.toList hdisplay
    exact (Term.outline_of_display (hentries hparse hlabels) (hentries hparse' hlabels') hnothing
      hnothing hchars).1
  refine ⟨houtline, fun codes codes' htokens htokens' => ?_⟩
  calc
    tree.term = tree.term.outline.term := ((formed_of_parse hparse).term_outline htokens).symm
    _ = tree'.term.outline.term := by rw [houtline]
    _ = tree'.term := (formed_of_parse hparse').term_outline htokens'

/-- Brackets around the whole expression do not show in the compact form, nor in the term. A
    placeholder does not pass for an operand with a code. -/
theorem outline_of_display_eq_placeholder :
    ∃ tree tree' : Tree,
      parse [⟨.prefixOp, "p1", ""⟩, ⟨.opening, "b(", "("⟩, ⟨.closing, "B(", "("⟩] = .ok tree ∧
      parse [⟨.opening, "b[", "["⟩, ⟨.prefixOp, "p1", ""⟩, ⟨.opening, "b(", "("⟩,
        ⟨.closing, "B(", "("⟩, ⟨.closing, "B[", "["⟩] = .ok tree' ∧
      tree.display = "p1(empty2)" ∧ tree'.display = "p1(empty2)" ∧
      tree.term.outline = tree'.term.outline ∧ tree.term = tree'.term := by
  have hparse : parse [⟨.prefixOp, "p1", ""⟩, ⟨.opening, "b(", "("⟩, ⟨.closing, "B(", "("⟩] =
      .ok ⟨⟨#[⟨.term, "empty2", [], some 1⟩, ⟨.prefixOp, "p1", [0], none⟩]⟩, 1⟩ := by
    decide +kernel
  have hparse' : parse [⟨.opening, "b[", "["⟩, ⟨.prefixOp, "p1", ""⟩, ⟨.opening, "b(", "("⟩,
      ⟨.closing, "B(", "("⟩, ⟨.closing, "B[", "["⟩] =
      .ok ⟨⟨#[⟨.term, "empty2", [], some 1⟩, ⟨.prefixOp, "p1", [0], none⟩]⟩, 1⟩ := by
    decide +kernel
  obtain ⟨houtline, hterm⟩ := outline_of_display_eq hparse hparse' (by decide +kernel)
    (by decide +kernel) rfl
  exact ⟨_, _, hparse, hparse', by decide +kernel, by decide +kernel, houtline,
    hterm ["p1", "b(", "B("] ["b[", "p1", "b(", "B(", "B["] (by rfl) (by rfl)⟩

/-- A variable that does not come from a code may be labelled like a placeholder, and only the kinds
    tell the two trees apart. -/
example :
    let shown (tokens : List Token) :=
      (parse tokens).toOption.map fun tree => (tree.rootNode.kind, tree.display)
    shown [⟨.var, "empty2", ""⟩] = some (.var, "empty2") ∧
      shown [⟨.opening, "b", ""⟩, ⟨.closing, "B", ""⟩] = some (.term, "empty2") := by
  decide +kernel

end OperatorTerms
