/-
Module: OperatorTerms.Proofs.RowText
Layer: Proofs
Purpose: Reading a row of a drawing back. A row is made of labels, each after a space, and of
  padding. Where the labels have no blanks in them, the row says which labels there are and in
  which columns they start, even when the blanks at its end are gone. Several lines in one text
  can be told apart as well, for no line has a line break in it.
Imports: OperatorTerms.Layout
Main exports: Text.trimEnd_append_spaces, Text.lines_injective, Layout.Mark, Layout.Plain,
  Layout.Spelled, Layout.Spelled.trimEnd, Layout.Spelled.trimEnd_eq_empty_iff,
  Layout.Spelled.unique
-/
import OperatorTerms.Layout

namespace OperatorTerms

namespace Text

/-- A list can be cut in one way only before the first place of an element. -/
theorem cut_unique {α : Type} {a : α} {front front' back back' : List α} (h : a ∉ front)
    (h' : a ∉ front') (heq : front ++ a :: back = front' ++ a :: back') :
    front = front' ∧ back = back' := by
  induction front generalizing front' with
  | nil =>
      cases front' with
      | nil => exact ⟨rfl, (List.cons.inj heq).2⟩
      | cons first' front' => exact absurd ((List.cons.inj heq).1 ▸ List.mem_cons_self) h'
  | cons first front ih =>
      cases front' with
      | nil => exact absurd ((List.cons.inj heq).1 ▸ List.mem_cons_self) h
      | cons first' front' =>
          rw [List.cons_append, List.cons_append, List.cons.injEq] at heq
          obtain ⟨rfl, heq⟩ := heq
          obtain ⟨rfl, rfl⟩ := ih (List.not_mem_of_not_mem_cons h)
            (List.not_mem_of_not_mem_cons h') heq
          exact ⟨rfl, rfl⟩

/-! ### Lines -/

theorem lines_injective {lines lines' : List String} (h : ∀ line ∈ lines, '\n' ∉ line.toList)
    (h' : ∀ line ∈ lines', '\n' ∉ line.toList)
    (heq : String.join (lines.map (· ++ "\n")) = String.join (lines'.map (· ++ "\n"))) :
    lines = lines' := by
  replace heq := congrArg String.toList heq
  simp only [String.toList_join, List.flatMap_map, String.toList_append] at heq
  induction lines generalizing lines' with
  | nil =>
      cases lines' with
      | nil => rfl
      | cons line' lines' => simp at heq
  | cons line lines ih =>
      cases lines' with
      | nil => simp at heq
      | cons line' lines' =>
          obtain ⟨hline, hlines⟩ := List.forall_mem_cons.1 h
          obtain ⟨hline', hlines'⟩ := List.forall_mem_cons.1 h'
          simp only [List.flatMap_cons, List.append_assoc] at heq
          obtain ⟨hfirst, hrest⟩ := cut_unique hline hline' heq
          rw [String.toList_inj.1 hfirst, ih hlines hlines' hrest]

/-! ### Sizes -/

theorem utf8ByteSize_append_label (text label : String) :
    (text ++ " " ++ label).utf8ByteSize = text.utf8ByteSize + 1 + label.utf8ByteSize := by
  rw [String.utf8ByteSize_append, String.utf8ByteSize_append]
  rfl

theorem utf8ByteSize_run (c : Char) (length : Nat) :
    (run c length).utf8ByteSize = length * c.utf8Size := by
  induction length with
  | zero => exact (Nat.zero_mul _).symm
  | succ length ih =>
      have hcons : run c (length + 1) = String.singleton c ++ run c length := by
        rw [run, List.replicate_succ, String.ofList_cons, run]
      rw [hcons, String.utf8ByteSize_append, String.utf8ByteSize_singleton, ih, Nat.succ_mul,
        Nat.add_comm]

theorem utf8ByteSize_spaces (length : Nat) : (spaces length).utf8ByteSize = length :=
  (utf8ByteSize_run ' ' length).trans (Nat.mul_one length)

/-! ### Blanks at the end -/

theorem isBlank_of_mem_spaces {length : Nat} {c : Char} (h : c ∈ (spaces length).toList) :
    isBlank c = true := by
  rw [spaces, run, String.toList_ofList] at h
  rw [List.eq_of_mem_replicate h]
  rfl

theorem trimEnd_append_spaces (text : String) (length : Nat) :
    trimEnd (text ++ spaces length) = trimEnd text := by
  have hspaces : ∀ c ∈ (spaces length).toList.reverse, isBlank c = true :=
    fun _ hmem => isBlank_of_mem_spaces (List.mem_reverse.1 hmem)
  rw [trimEnd, trimEnd, String.toList_append, List.reverse_append,
    List.dropWhile_append_of_pos hspaces]

theorem mem_of_mem_trimEnd {text : String} {c : Char} (h : c ∈ (trimEnd text).toList) :
    c ∈ text.toList := by
  rw [trimEnd, String.toList_ofList, List.mem_reverse] at h
  exact List.mem_reverse.1 (List.dropWhile_sublist _ |>.subset h)

end Text

namespace Layout

/-- A label of a drawing: its row and the column, counted in bytes, in which it starts. -/
structure Mark where
  row : Nat
  column : Nat
  label : String
deriving DecidableEq, Repr

/-- A label that shows, in one piece. -/
def Plain (label : String) : Prop :=
  label ≠ "" ∧ ∀ c ∈ label.toList, Text.isBlank c = false

instance (label : String) : Decidable (Plain label) :=
  decidable_of_iff ((label.toList.isEmpty || label.toList.any Text.isBlank) = false)
    (by simp [Plain])

/-- The labels of a row, from left to right, and the text that they are written in. -/
inductive Spelled (row : Nat) : List Mark → String → Prop where
  | blank : Spelled row [] ""
  | label {marks : List Mark} {text label : String} : Spelled row marks text → Plain label →
      Spelled row (marks ++ [⟨row, text.utf8ByteSize + 1, label⟩]) (text ++ " " ++ label)
  | pad {marks : List Mark} {text : String} (length : Nat) : Spelled row marks text →
      Spelled row marks (text ++ Text.spaces length)

variable {row : Nat} {marks marks' : List Mark} {text text' label label' : String}

/-! ### Labels -/

theorem Plain.trimEnd_append (h : Plain label) (text : String) :
    Text.trimEnd (text ++ label) = text ++ label := by
  obtain ⟨hne, hplain⟩ := h
  obtain ⟨front, last, hlast⟩ := List.eq_nil_or_concat label.toList |>.resolve_left
    (fun hnil => hne (String.toList_inj.1 hnil))
  have hblank := hplain last (by simp [hlast])
  apply String.toList_inj.1
  rw [Text.trimEnd, String.toList_ofList, String.toList_append, hlast]
  simp [hblank]

/-- A label is what stands after the last space. -/
theorem Plain.append_inj (h : Plain label) (h' : Plain label')
    (heq : text ++ " " ++ label = text' ++ " " ++ label') : text = text' ∧ label = label' := by
  have hspace {label : String} (hplain : Plain label) : ' ' ∉ label.toList.reverse := by
    intro hmem
    have := hplain.2 ' ' (List.mem_reverse.1 hmem)
    contradiction
  have heq := congrArg (fun text : String => text.toList.reverse) heq
  simp only [String.toList_append, List.reverse_append] at heq
  obtain ⟨hlabel, htext⟩ := Text.cut_unique (hspace h) (hspace h') heq
  exact ⟨String.toList_inj.1 (List.reverse_inj.1 htext),
    String.toList_inj.1 (List.reverse_inj.1 hlabel)⟩

/-! ### Rows -/

namespace Spelled

/-- A label starts within its row. -/
theorem column_le (h : Spelled row marks text) :
    ∀ mark ∈ marks, mark.column ≤ text.utf8ByteSize := by
  induction h with
  | blank => simp
  | @label front start label _ _ ih =>
      rw [Text.utf8ByteSize_append_label, List.forall_mem_append, List.forall_mem_singleton]
      refine ⟨fun mark hmem => ?_, Nat.le_add_right _ _⟩
      have hle := ih mark hmem
      omega
  | pad length _ ih =>
      intro mark hmem
      rw [String.utf8ByteSize_append]
      exact Nat.le_add_right_of_le (ih mark hmem)

/-- A row is one line. -/
theorem newline_not_mem (h : Spelled row marks text) : '\n' ∉ text.toList := by
  induction h with
  | blank => simp
  | @label front start label _ hplain ih =>
      have hlabel : '\n' ∉ label.toList := by
        intro hmem
        have := hplain.2 _ hmem
        contradiction
      simp [ih, hlabel]
  | pad length _ ih => simp [ih, Text.spaces, Text.run]

/-- Without the blanks at its end a row is empty or ends with its last label. -/
theorem trimEnd_cases (h : Spelled row marks text) :
    marks = [] ∧ Text.trimEnd text = "" ∨
      ∃ front start label, Spelled row front start ∧ Plain label ∧
        marks = front ++ [⟨row, start.utf8ByteSize + 1, label⟩] ∧
          Text.trimEnd text = start ++ " " ++ label := by
  induction h with
  | blank => exact .inl ⟨rfl, rfl⟩
  | @label front start label hfront hplain _ =>
      exact .inr ⟨front, start, label, hfront, hplain, rfl, hplain.trimEnd_append _⟩
  | pad length _ ih => rwa [Text.trimEnd_append_spaces]

/-- The blanks at the end of a row do not matter. -/
theorem trimEnd (h : Spelled row marks text) : Spelled row marks (Text.trimEnd text) := by
  obtain ⟨rfl, htrim⟩ | ⟨front, start, label, hfront, hplain, rfl, htrim⟩ := h.trimEnd_cases
  · rw [htrim]
    exact .blank
  · rw [htrim]
    exact .label hfront hplain

/-- Only a row without labels is blank. -/
theorem trimEnd_eq_empty_iff (h : Spelled row marks text) :
    Text.trimEnd text = "" ↔ marks = [] := by
  obtain ⟨rfl, htrim⟩ | ⟨front, start, label, -, -, rfl, htrim⟩ := h.trimEnd_cases
  · simp [htrim]
  · simp [htrim]

/-- What is left of a row without the blanks at its end determines its labels. -/
theorem unique (h : Spelled row marks text) (h' : Spelled row marks' text')
    (htrim : Text.trimEnd text = Text.trimEnd text') : marks = marks' := by
  induction h generalizing marks' text' with
  | blank => exact (h'.trimEnd_eq_empty_iff.1 htrim.symm).symm
  | @label front start label hfront hplain ih =>
      rw [hplain.trimEnd_append] at htrim
      obtain ⟨-, htrim'⟩ | ⟨front', start', label', hfront', hplain', rfl, htrim'⟩ :=
        h'.trimEnd_cases
      · exact absurd (htrim.trans htrim') (by simp)
      · obtain ⟨rfl, rfl⟩ := hplain.append_inj hplain' (htrim.trans htrim')
        rw [ih hfront' rfl]
  | pad length _ ih =>
      rw [Text.trimEnd_append_spaces] at htrim
      exact ih h' htrim

end Spelled

end Layout

end OperatorTerms
