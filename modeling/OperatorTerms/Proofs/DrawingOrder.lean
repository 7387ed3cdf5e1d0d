/-
Module: OperatorTerms.Proofs.DrawingOrder
Layer: Proofs
Purpose: Where the labels of a drawing stand. While the nodes of a term are written, the rows nearer
  to the root than the last node all end in the same column, and no label starts further right,
  except that labels of deeper rows may start just behind it. So every label goes to the right of
  those written before it or, in the same column, above them: the columns and rows of the labels
  show the order in which they were written.
Imports: Mathlib.Data.List.Basic, OperatorTerms.Proofs.RowText, OperatorTerms.Proofs.TraversalOrder
Main exports: Layout.Mark.Before, Layout.Drawing, Layout.Drawing.draw,
  Layout.Drawing.Legible, Layout.Drawing.Legible.draw, Layout.Drawing.Legible.drawAll
-/
import Mathlib.Data.List.Basic
import OperatorTerms.Proofs.RowText
import OperatorTerms.Proofs.TraversalOrder

namespace OperatorTerms.Layout

/-- The first label stands further left than the second or, in the same column, below it. -/
def Mark.Before (first second : Mark) : Prop :=
  first.column < second.column ∨ first.column = second.column ∧ second.row < first.row

/-- Rows, and the labels in them in the order in which they were written. -/
structure Drawing where
  rows : List String
  marks : List Mark

namespace Drawing

/-- Pads the rows to the same width. -/
def aligned (drawing : Drawing) : Drawing := { drawing with rows := align drawing.rows }

/-- Writes a label at the end of a row. -/
def write (drawing : Drawing) (row : Nat) (label : String) : Drawing where
  rows := drawing.rows.modify row fun text => text ++ " " ++ label
  marks := drawing.marks ++ [⟨row, (drawing.rows[row]?.getD "").utf8ByteSize + 1, label⟩]

/-- Writes the label of a node, and pads the rows where its kind calls for it. -/
def draw (drawing : Drawing) (entry : Entry) : Drawing :=
  let drawing := if entry.kind.isInfix then drawing.aligned else drawing
  let drawing := drawing.write entry.depth entry.label
  if keepsColumn entry.kind then drawing else drawing.aligned

/-- A drawing whose labels can be told apart and show their order, with the rows before the given
    one ready for a label. -/
structure Legible (drawing : Drawing) (ready : Nat) : Prop where
  spelled : ∀ row text, drawing.rows[row]? = some text →
    Spelled row (drawing.marks.filter (·.row = row)) text
  inside : ∀ mark ∈ drawing.marks, mark.row < drawing.rows.length
  sorted : drawing.marks.Pairwise Mark.Before
  /-- The next label in a row that is ready goes behind the others or above them. -/
  even : ∃ edge, (∀ row < ready, ∀ text, drawing.rows[row]? = some text →
      text.utf8ByteSize = edge) ∧
    ∀ mark ∈ drawing.marks, mark.column ≤ edge ∨ mark.column = edge + 1 ∧ ready ≤ mark.row

end Drawing

/-! ### Widths -/

/-- All rows are padded behind an infix operator. -/
theorem keepsColumn_of_isInfix {kind : Kind} (h : kind.isInfix = true) :
    keepsColumn kind = false := by
  revert h
  cases kind <;> decide

theorem width_le_iff {rows : List String} {bound : Nat} :
    width rows ≤ bound ↔ ∀ text ∈ rows, text.utf8ByteSize ≤ bound := by
  induction rows with
  | nil => simp [width]
  | cons first rows ih =>
      have hcons : width (first :: rows) = max first.utf8ByteSize (width rows) := rfl
      rw [hcons, Nat.max_le, ih, List.forall_mem_cons]

theorem le_width {rows : List String} {text : String} (h : text ∈ rows) :
    text.utf8ByteSize ≤ width rows :=
  width_le_iff.1 (Nat.le_refl _) text h

theorem getElem?_align (rows : List String) (row : Nat) :
    (align rows)[row]? =
      rows[row]?.map fun text => text ++ Text.spaces (width rows - text.utf8ByteSize) :=
  List.getElem?_map

@[simp]
theorem length_align (rows : List String) : (align rows).length = rows.length :=
  List.length_map _

/-- After padding all rows have the width of the widest. -/
theorem utf8ByteSize_of_getElem?_align {rows : List String} {row : Nat} {text : String}
    (h : (align rows)[row]? = some text) : text.utf8ByteSize = width rows := by
  rw [getElem?_align, Option.map_eq_some_iff] at h
  obtain ⟨text, htext, rfl⟩ := h
  rw [String.utf8ByteSize_append, Text.utf8ByteSize_spaces]
  exact Nat.add_sub_cancel' (le_width (List.mem_of_getElem? htext))

theorem width_align (rows : List String) : width (align rows) = width rows := by
  apply Nat.le_antisymm
  · refine width_le_iff.2 fun text hmem => ?_
    obtain ⟨row, hrow⟩ := List.mem_iff_getElem?.1 hmem
    exact Nat.le_of_eq (utf8ByteSize_of_getElem?_align hrow)
  · refine width_le_iff.2 fun text hmem => ?_
    have hpadded : text ++ Text.spaces (width rows - text.utf8ByteSize) ∈ align rows :=
      List.mem_map_of_mem hmem
    have hle := le_width hpadded
    rw [String.utf8ByteSize_append] at hle
    exact Nat.le_trans (Nat.le_add_right _ _) hle

namespace Drawing

variable {drawing : Drawing} {ready row : Nat} {label : String} {entry : Entry}

@[simp]
theorem length_rows_aligned (drawing : Drawing) :
    drawing.aligned.rows.length = drawing.rows.length :=
  length_align drawing.rows

@[simp]
theorem length_rows_write (drawing : Drawing) (row : Nat) (label : String) :
    (drawing.write row label).rows.length = drawing.rows.length :=
  List.length_modify ..

@[simp]
theorem length_rows_draw (drawing : Drawing) (entry : Entry) :
    (drawing.draw entry).rows.length = drawing.rows.length := by
  unfold draw
  split <;> split <;> simp

namespace Legible

theorem column_le_width (h : drawing.Legible ready) :
    ∀ mark ∈ drawing.marks, mark.column ≤ width drawing.rows := by
  intro mark hmem
  have htext := List.getElem?_eq_getElem (h.inside mark hmem)
  have hfilter : mark ∈ drawing.marks.filter (·.row = mark.row) :=
    List.mem_filter.2 ⟨hmem, by simp⟩
  exact Nat.le_trans ((h.spelled mark.row _ htext).column_le mark hfilter)
    (le_width (List.mem_of_getElem? htext))

/-- Fewer rows are ready if more are. -/
theorem mono {fewer : Nat} (h : drawing.Legible ready) (hle : fewer ≤ ready) :
    drawing.Legible fewer := by
  obtain ⟨edge, heven, hmarks⟩ := h.even
  refine ⟨h.spelled, h.inside, h.sorted, edge, ?_, ?_⟩
  · exact fun row hlt => heven row (Nat.lt_of_lt_of_le hlt hle)
  · exact fun mark hmem => (hmarks mark hmem).imp_right
      fun ⟨hcolumn, hrow⟩ => ⟨hcolumn, Nat.le_trans hle hrow⟩

/-- After padding every row is ready. -/
theorem aligned (h : drawing.Legible ready) (ready' : Nat) : drawing.aligned.Legible ready' := by
  refine ⟨?_, ?_, h.sorted, width drawing.rows, ?_, ?_⟩
  · intro row text htext
    rw [Drawing.aligned, getElem?_align, Option.map_eq_some_iff] at htext
    obtain ⟨text, htext, rfl⟩ := htext
    exact .pad _ (h.spelled row text htext)
  · intro mark hmem
    rw [length_rows_aligned]
    exact h.inside mark hmem
  · exact fun row _ text htext => utf8ByteSize_of_getElem?_align htext
  · exact fun mark hmem => .inl (h.column_le_width mark hmem)

/-- Writing in a row that is ready leaves the rows before it ready. -/
theorem write (h : drawing.Legible ready) (hready : row < ready)
    (hrow : row < drawing.rows.length) (hlabel : Plain label) :
    (drawing.write row label).Legible row := by
  obtain ⟨edge, heven, hmarks⟩ := h.even
  have htext := List.getElem?_eq_getElem hrow
  -- The row is ready, so the label starts just behind the edge.
  have hmark : (drawing.write row label).marks = drawing.marks ++ [⟨row, edge + 1, label⟩] := by
    rw [Drawing.write, htext, Option.getD_some, heven row hready _ htext]
  have hrows (other : Nat) : (drawing.write row label).rows[other]? =
      drawing.rows[other]?.map fun text => if row = other then text ++ " " ++ label else text :=
    List.getElem?_modify ..
  refine ⟨?spelled, ?inside, ?sorted, edge, ?even, ?marks⟩
  case spelled =>
    intro other text hother
    rw [hrows, Option.map_eq_some_iff] at hother
    obtain ⟨text, hother, rfl⟩ := hother
    have hspelled := h.spelled other text hother
    rw [hmark, List.filter_append]
    split
    · rename_i heq
      subst heq
      rw [← heven row hready text hother]
      simpa using Spelled.label hspelled hlabel
    · rename_i hne
      simpa [hne] using hspelled
  case inside =>
    rw [hmark, length_rows_write, List.forall_mem_append, List.forall_mem_singleton]
    exact ⟨h.inside, hrow⟩
  case sorted =>
    rw [hmark, List.pairwise_append]
    refine ⟨h.sorted, List.pairwise_singleton .., fun mark hmem => ?_⟩
    rw [List.forall_mem_singleton]
    rcases hmarks mark hmem with hcolumn | ⟨hcolumn, hbelow⟩
    · exact .inl (Nat.lt_succ_of_le hcolumn)
    · exact .inr ⟨hcolumn, Nat.lt_of_lt_of_le hready hbelow⟩
  case even =>
    intro other hlt text hother
    simp only [hrows, if_neg (Nat.ne_of_gt hlt), Option.map_id'] at hother
    exact heven other (Nat.lt_trans hlt hready) text hother
  case marks =>
    rw [hmark, List.forall_mem_append, List.forall_mem_singleton]
    refine ⟨fun mark hmem => ?_, .inr ⟨rfl, Nat.le_refl _⟩⟩
    exact (hmarks mark hmem).imp_right
      fun ⟨hcolumn, hbelow⟩ => ⟨hcolumn, Nat.le_trans (Nat.le_of_lt hready) hbelow⟩

/-- A node can be drawn in a row that is ready. -/
theorem draw (h : drawing.Legible ready) (hready : entry.depth < ready)
    (hrow : entry.depth < drawing.rows.length) (hlabel : Plain entry.label) :
    (drawing.draw entry).Legible entry.depth := by
  unfold Drawing.draw
  split
  · have hwrite := (h.aligned ready).write hready (by simpa using hrow) hlabel
    split
    · exact hwrite
    · exact hwrite.aligned _
  · have hwrite := h.write hready hrow hlabel
    split
    · exact hwrite
    · exact hwrite.aligned _

/-- An infix operator can be drawn in any row, and makes all rows ready. -/
theorem draw_infixOperator (h : drawing.Legible ready) (hkind : entry.kind.isInfix = true)
    (hrow : entry.depth < drawing.rows.length) (hlabel : Plain entry.label) (ready' : Nat) :
    (drawing.draw entry).Legible ready' := by
  have hkeeps := keepsColumn_of_isInfix hkind
  have hwrite := (h.aligned (entry.depth + 1)).write (Nat.lt_succ_self _) (by simpa using hrow)
    hlabel
  simp only [Drawing.draw, hkind, hkeeps]
  exact hwrite.aligned ready'

end Legible

/-! ### Drawing a term -/

/-- Draws nodes one after the other. -/
def drawAll (drawing : Drawing) (entries : List Entry) : Drawing := entries.foldl draw drawing

@[simp]
theorem length_rows_drawAll (drawing : Drawing) (entries : List Entry) :
    (drawing.drawAll entries).rows.length = drawing.rows.length := by
  induction entries generalizing drawing with
  | nil => rfl
  | cons entry entries ih => exact (ih _).trans (length_rows_draw drawing entry)

theorem drawAll_append (drawing : Drawing) (entries entries' : List Entry) :
    drawing.drawAll (entries ++ entries') = (drawing.drawAll entries).drawAll entries' :=
  List.foldl_append

/-- The nodes of a term are drawn one above the other or from left to right, and the rows before
    that of the outermost node stay ready. -/
theorem Legible.drawAll {tokens : List Token} {term : Term} {depth : Nat}
    (hterm : term.Formed tokens) (h : ∀ ready, drawing.Legible ready)
    (hentries : ∀ entry ∈ term.entries depth,
      entry.depth < drawing.rows.length ∧ Plain entry.label) :
    (drawing.drawAll (term.entries depth)).Legible depth := by
  -- A term is only begun when every row is ready: at first, below a unary operator, which is drawn
  -- after its operand, and behind an infix operator, which makes them ready.
  induction hterm generalizing drawing depth with
  | atom _ =>
      simp only [Term.entries, List.forall_mem_singleton] at hentries ⊢
      obtain ⟨hrow, hlabel⟩ := hentries
      exact (h (depth + 1)).draw (Nat.lt_succ_self _) hrow hlabel
  | unary _ _ ih =>
      simp only [Term.entries, Term.entriesAll, List.forall_mem_append,
        List.forall_mem_singleton] at hentries ⊢
      obtain ⟨hoperand, hrow, hlabel⟩ := hentries
      rw [drawAll_append]
      exact (ih h hoperand).draw (Nat.lt_succ_self _) (by simpa using hrow) hlabel
  | @infixed kind label left right hmade _ _ ihleft ihright =>
      simp only [Term.entries, Term.entriesAll, List.append_nil, List.forall_mem_append,
        List.forall_mem_cons] at hentries ⊢
      obtain ⟨hleft, ⟨hrow, hlabel⟩, hright⟩ := hentries
      have hkind : kind.isInfix = true := Kind.arity?_eq_two_iff.1 hmade.arity?_eq
      rw [drawAll_append]
      have hdrawn : ∀ ready, ((drawing.drawAll (left.entries (depth + 1))).draw
          ⟨depth, kind, label⟩).Legible ready :=
        (ihleft h hleft).draw_infixOperator hkind (by simpa using hrow) hlabel
      refine (ihright hdrawn ?_).mono (Nat.le_succ depth)
      intro entry hmem
      simpa using hright entry hmem

end Drawing

end OperatorTerms.Layout
