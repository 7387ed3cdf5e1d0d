/-
Module: OperatorTerms.Tree
Layer: Terms
Purpose: A finished parse: a forest and the node that stands for the whole expression.
Imports: OperatorTerms.Forest.Traversal
Main exports: Tree, Tree.term, Tree.display, Tree.postOrder, Tree.maxDepth, Tree.leaves
-/
import OperatorTerms.Forest.Traversal

namespace OperatorTerms

/-- A tree: the nodes of a parse, and which of them is the whole expression. -/
structure Tree where
  forest : Forest
  root : NodeId
deriving DecidableEq, Repr, Inhabited

namespace Tree

/-- The node with the given number. -/
def node (tree : Tree) (id : NodeId) : Node := tree.forest.node id

/-- The node of the whole expression. -/
def rootNode (tree : Tree) : Node := tree.node tree.root

/-- The whole expression as a term. -/
def term (tree : Tree) : Term := tree.forest.term tree.root

/-- The compact form of the whole expression. -/
def display (tree : Tree) : String := tree.term.display

/-- The nodes of the tree, each after its first operand and before its other ones. -/
def postOrder (tree : Tree) : List NodeId := tree.forest.postOrder tree.root

/-- The number of nodes of the tree. -/
def size (tree : Tree) : Nat := tree.postOrder.length

/-- The depth of a node, which is one for the root. -/
def depth (tree : Tree) (id : NodeId) : Nat := tree.forest.depth id

/-- The greatest depth of a node. -/
def maxDepth (tree : Tree) : Nat := ((tree.postOrder.map tree.depth).max?).getD 1

/-- The labels of the nodes without operands, from left to right. -/
def leaves (tree : Tree) : List String :=
  ((tree.postOrder.map tree.node).filter Node.isLeaf).map Node.label

end Tree

end OperatorTerms
