/-
Module: OperatorTerms.Layout
Layer: Layout
Purpose: Drawing a tree as text, one row for each depth. The nodes are written in the order of the
  walk, each at the end of the row for its depth. Padding all rows to the same width opens a
  column: that happens before and after an infix operator and after a placeholder, so the operands
  of an infix operator stand to its left and right, while unary operators share a column with
  their operand. Widths are counted in bytes of UTF-8.
Imports: OperatorTerms.Tree, OperatorTerms.Text.Blank
Main exports: Layout.width, Layout.align, Layout.place, Layout.rows, Tree.render
-/
import OperatorTerms.Text.Blank
import OperatorTerms.Tree

namespace OperatorTerms

namespace Layout

/-- The width of the widest row. -/
def width (rows : List String) : Nat :=
  rows.foldr (fun row widest => max row.utf8ByteSize widest) 0

/-- Pads every row with spaces to the width of the widest. -/
def align (rows : List String) : List String :=
  let widest := width rows
  rows.map fun row => row ++ Text.spaces (widest - row.utf8ByteSize)

/-- Kinds whose labels do not close the column they stand in. -/
def keepsColumn : Kind → Bool
  | .prefixOp | .suffixOp | .var => true
  | _ => false

/-- Writes the label of a node at the end of the row for its depth. -/
def place (tree : Tree) (rows : List String) (id : NodeId) : List String :=
  let node := tree.node id
  let rows := if node.kind.isInfix then align rows else rows
  let rows := rows.modify (tree.depth id) fun row => row ++ " " ++ node.label
  if keepsColumn node.kind then rows else align rows

/-- The rows of a tree before trimming. Depths count from one, so the row before the root's stays
    blank. -/
def rows (tree : Tree) : List String :=
  tree.postOrder.foldl (place tree) (List.replicate (tree.maxDepth + 1) "")

/-- The rows as they are shown: without blanks at the end, and from the first row that holds
    anything. -/
def lines (tree : Tree) : List String :=
  ((rows tree).map Text.trimEnd).dropWhile String.isEmpty

/-- The line above a tree, which is there when there is a title. -/
def heading : List String → List String
  | [] => []
  | title => [" ".intercalate title]

end Layout

/-- Draws a tree, under a title if there is one. Every line is ended. -/
def Tree.render (tree : Tree) (title : List String) : String :=
  String.join ((Layout.heading title ++ Layout.lines tree).map (· ++ "\n"))

end OperatorTerms
