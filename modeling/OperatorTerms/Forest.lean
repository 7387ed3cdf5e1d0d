/-
Module: OperatorTerms.Forest
Layer: Terms
Purpose: The store in which a parse builds its terms. A node is addressed by its number, the
  numbers are given out in order, and a node is only ever built from older ones, whose parent it
  becomes. Going down therefore always reaches older nodes and going up newer ones, and every walk
  over a forest ends for that reason.
Imports: OperatorTerms.Term
Main exports: Node, Forest, Forest.apply, Forest.leaf, Forest.fold, Forest.term, Forest.depth
-/
import OperatorTerms.Term

namespace OperatorTerms

/-- The number of a node in its forest. -/
abbrev NodeId := Nat

/-- A stored term: what produced it, the nodes of its operands, and the node that it is an operand
    of, if there is one. -/
structure Node where
  kind : Kind
  label : String
  operands : List NodeId := []
  parent : Option NodeId := none
deriving DecidableEq, Repr, Inhabited

/-- Whether a node has no operands. -/
def Node.isLeaf (node : Node) : Bool := node.operands.isEmpty

/-- The nodes of a parse, oldest first. -/
structure Forest where
  nodes : Array Node := #[]
deriving DecidableEq, Repr, Inhabited

namespace Forest

/-- The number of nodes, which is also the number of the next one. -/
def size (forest : Forest) : Nat := forest.nodes.size

/-- The node with the given number; outside the forest, a leaf without label. -/
def node (forest : Forest) (id : NodeId) : Node := forest.nodes[id]?.getD default

/-- Makes `parent` the parent of every node in the list. -/
def adopt (forest : Forest) (parent : NodeId) (operands : List NodeId) : Forest :=
  ⟨operands.foldl
    (fun nodes operand => nodes.modify operand fun node => { node with parent := some parent })
    forest.nodes⟩

/-- Adds a node on top of the given operands. Its number is the size of the forest before. -/
def apply (forest : Forest) (kind : Kind) (label : String) (operands : List NodeId) : Forest :=
  ⟨(forest.adopt forest.size operands).nodes.push { kind, label, operands }⟩

/-- Adds a node without operands. Its number is the size of the forest before. -/
def leaf (forest : Forest) (kind : Kind) (label : String) : Forest :=
  forest.apply kind label []

/-!
### Going down

`operandsOf` lists the operands of a node that are older than it. In a forest made by `apply` from
existing nodes these are all of its operands.
-/

/-- The operands of a node, from left to right. -/
def operandsOf (forest : Forest) (id : NodeId) : List NodeId :=
  (forest.node id).operands.filter (· < id)

/-- Listed operands are older than their node. -/
theorem lt_of_mem_operandsOf {forest : Forest} {id operand : NodeId}
    (h : operand ∈ forest.operandsOf id) : operand < id := by
  simpa using (List.mem_filter.1 h).2

/-- Computes a value for a node from the values of its operands. -/
def fold {α : Type} (forest : Forest) (combine : NodeId → Node → List α → α) (id : NodeId) : α :=
  combine id (forest.node id)
    ((forest.operandsOf id).attach.map fun operand => forest.fold combine operand.1)
termination_by id
decreasing_by exact lt_of_mem_operandsOf operand.2

/-- Folding a node combines the folds of its operands. -/
theorem fold_eq {α : Type} (forest : Forest) (combine : NodeId → Node → List α → α)
    (id : NodeId) :
    forest.fold combine id =
      combine id (forest.node id) ((forest.operandsOf id).map (forest.fold combine)) := by
  rw [fold, List.map_attach_eq_pmap, List.pmap_eq_map]

/-- The term that a node stands for. -/
def term (forest : Forest) (id : NodeId) : Term :=
  forest.fold (fun _ node operands => .node node.kind node.label operands) id

/-- The number of nodes at and below a node. -/
def count (forest : Forest) (id : NodeId) : Nat :=
  forest.fold (fun _ _ counts => counts.foldr (· + ·) 1) id

/-!
### Going up
-/

/-- The parent of a node, which is newer than the node. -/
def parentOf? (forest : Forest) (id : NodeId) : Option NodeId :=
  (forest.node id).parent.filter fun parent => id < parent && parent < forest.size

/-- A parent is newer than its operand, and in the forest. -/
theorem lt_of_parentOf?_eq_some {forest : Forest} {id parent : NodeId}
    (h : forest.parentOf? id = some parent) : id < parent ∧ parent < forest.size := by
  simpa using (Option.filter_eq_some_iff.1 h).2

/-- One for a node without parent, and one more than its parent's for any other. -/
def depth (forest : Forest) (id : NodeId) : Nat :=
  match h : forest.parentOf? id with
  | none => 1
  | some parent => forest.depth parent + 1
termination_by forest.size - id
decreasing_by
  have ⟨newer, stored⟩ := lt_of_parentOf?_eq_some h
  exact Nat.sub_lt_sub_left (Nat.lt_trans newer stored) newer

end Forest

end OperatorTerms
