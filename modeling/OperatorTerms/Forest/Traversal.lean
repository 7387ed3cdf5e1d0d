/-
Module: OperatorTerms.Forest.Traversal
Layer: Terms
Purpose: The order in which the nodes of a tree are visited: the first operand, then the node
  itself, then the other operands. Infix operators thereby come between their operands, and unary
  ones after theirs. The walk keeps a list of visits still to be made and never returns to a node.
Imports: OperatorTerms.Forest
Main exports: Forest.Visit, Forest.visit, Forest.postOrder, Forest.order
-/
import OperatorTerms.Forest

namespace OperatorTerms.Forest

/-- A visit still to be made. -/
inductive Visit where
  /-- The node and everything below it. -/
  | expand (id : NodeId)
  /-- The node alone, its first operand being done. -/
  | emit (id : NodeId)
deriving DecidableEq, Repr

/-- A bound on the steps that a visit takes: expanding a node counts it twice, once to open it and
    once to emit it. -/
def Visit.load (forest : Forest) : Visit → Nat
  | expand id => 2 * forest.count id
  | emit _ => 1

/-- A bound on the steps that all pending visits take. -/
def Visit.loadAll (forest : Forest) : List Visit → Nat
  | [] => 0
  | visit :: pending => visit.load forest + loadAll forest pending

/-- A node counts once, and its operands count their own nodes. -/
theorem count_eq (forest : Forest) (id : NodeId) :
    forest.count id = ((forest.operandsOf id).map forest.count).foldr (· + ·) 1 := by
  rw [count, fold_eq]
  rfl

/-- Expanding the operands of a node takes two steps less than expanding the node. -/
theorem loadAll_expand (forest : Forest) (ids : List NodeId) (pending : List Visit) :
    Visit.loadAll forest (ids.map .expand ++ pending) + 2 =
      2 * (ids.map forest.count).foldr (· + ·) 1 + Visit.loadAll forest pending := by
  induction ids with
  | nil =>
      simp only [List.map_nil, List.nil_append, List.foldr_nil]
      omega
  | cons id ids ih =>
      simp only [List.map_cons, List.cons_append, List.foldr_cons, Visit.loadAll, Visit.load]
      omega

/-- Makes the pending visits in turn, and lists the nodes in the order in which they are
    emitted. -/
def visit (forest : Forest) : List Visit → List NodeId
  | [] => []
  | .emit id :: pending => id :: forest.visit pending
  | .expand id :: pending =>
      match h : forest.operandsOf id with
      | [] => id :: forest.visit pending
      | first :: rest =>
          forest.visit (.expand first :: .emit id :: (rest.map .expand ++ pending))
termination_by pending => Visit.loadAll forest pending
decreasing_by
  · simp [Visit.loadAll, Visit.load]
  · simp [Visit.loadAll, Visit.load, count_eq forest id, h]
  · have hload := loadAll_expand forest rest pending
    simp only [Visit.loadAll, Visit.load, count_eq forest id, h, List.map_cons, List.foldr_cons]
    omega

/-- The nodes at and below the given one, in the order of the walk. -/
def postOrder (forest : Forest) (id : NodeId) : List NodeId := forest.visit [.expand id]

/-- The same order by recursion on the nodes: the nodes of the first operand, the node, the nodes
    of the other operands. -/
def order (forest : Forest) (id : NodeId) : List NodeId :=
  forest.fold
    (fun id _ orders =>
      match orders with
      | [] => [id]
      | first :: rest => first ++ id :: rest.flatten)
    id

end OperatorTerms.Forest
