/-
Module: OperatorTerms.Proofs.ForestGrowth
Layer: Proofs
Purpose: A forest only grows. Adding a node leaves the kinds, labels and operands of the nodes that
  were there as they are, and changes no more of them than who their parent is. Since going down
  from a node never looks at parents, a node stands for the same term in every later forest, and
  whatever a parse has built it can rely on until the end.
Imports: OperatorTerms.Forest
Main exports: Forest.Extends, Forest.extends_apply, Forest.Extends.term_eq, Forest.term_apply
-/
import OperatorTerms.Forest

namespace OperatorTerms.Forest

/-- The new forest has the nodes of the old one, apart from their parents, and perhaps more. -/
structure Extends (old new : Forest) : Prop where
  size_le : old.size ≤ new.size
  kind_eq : ∀ id < old.size, (new.node id).kind = (old.node id).kind
  label_eq : ∀ id < old.size, (new.node id).label = (old.node id).label
  operands_eq : ∀ id < old.size, (new.node id).operands = (old.node id).operands

namespace Extends

theorem refl (forest : Forest) : forest.Extends forest :=
  ⟨Nat.le_refl _, fun _ _ => rfl, fun _ _ => rfl, fun _ _ => rfl⟩

theorem trans {first second third : Forest} (h : first.Extends second)
    (h' : second.Extends third) : first.Extends third := by
  have hlt : ∀ id < first.size, id < second.size := fun id hid => Nat.lt_of_lt_of_le hid h.size_le
  refine ⟨Nat.le_trans h.size_le h'.size_le, ?_, ?_, ?_⟩
  · intro id hid
    rw [h'.kind_eq id (hlt id hid), h.kind_eq id hid]
  · intro id hid
    rw [h'.label_eq id (hlt id hid), h.label_eq id hid]
  · intro id hid
    rw [h'.operands_eq id (hlt id hid), h.operands_eq id hid]

end Extends

/-!
### Adding a node

`apply` first tells the operands who their parent is and then appends the new node, so its effect is
that of two simpler steps.
-/

private theorem adopt_nodes_size (parent : NodeId) (operands : List NodeId) (nodes : Array Node) :
    (operands.foldl
      (fun nodes operand => nodes.modify operand fun node => { node with parent := some parent })
      nodes).size = nodes.size := by
  induction operands generalizing nodes with
  | nil => rfl
  | cons operand operands ih =>
      rw [List.foldl_cons, ih, Array.size_modify]

@[simp]
theorem size_adopt (forest : Forest) (parent : NodeId) (operands : List NodeId) :
    (forest.adopt parent operands).size = forest.size :=
  adopt_nodes_size parent operands forest.nodes

private theorem node_modify (forest : Forest) (operand id : NodeId) (change : Node → Node) :
    (⟨forest.nodes.modify operand change⟩ : Forest).node id =
      if operand = id ∧ id < forest.size then change (forest.node id) else forest.node id := by
  by_cases hid : id < forest.nodes.size
  · by_cases h : operand = id
    · simp [node, size, Array.getElem_modify, h, hid]
    · simp [node, Array.getElem?_modify, h]
  · simp [node, size, hid]

/-- A parent is all that the listed nodes get. -/
theorem node_adopt (forest : Forest) (parent : NodeId) (operands : List NodeId) (id : NodeId) :
    (forest.adopt parent operands).node id =
      if id ∈ operands ∧ id < forest.size then
        { forest.node id with parent := some parent }
      else
        forest.node id := by
  induction operands generalizing forest with
  | nil => simp [adopt]
  | cons operand operands ih =>
      have hstep : forest.adopt parent (operand :: operands) =
          (forest.adopt parent [operand]).adopt parent operands := rfl
      have hfirst : (forest.adopt parent [operand]).node id =
          if operand = id ∧ id < forest.size then
            { forest.node id with parent := some parent }
          else
            forest.node id :=
        node_modify forest operand id fun node => { node with parent := some parent }
      rw [hstep, ih, hfirst, size_adopt]
      by_cases hid : id < forest.size
      · by_cases h : operand = id
        · simp [h, hid]
        · simp [h, hid, Ne.symm h]
      · simp [hid]

theorem extends_adopt (forest : Forest) (parent : NodeId) (operands : List NodeId) :
    forest.Extends (forest.adopt parent operands) := by
  refine ⟨by simp, ?_, ?_, ?_⟩
  all_goals
    intro id _
    rw [node_adopt]
    split <;> rfl

@[simp]
theorem size_apply (forest : Forest) (kind : Kind) (label : String) (operands : List NodeId) :
    (forest.apply kind label operands).size = forest.size + 1 := by
  rw [apply, size, Array.size_push]
  exact congrArg (· + 1) (size_adopt forest forest.size operands)

/-- The new node is found under the size that the forest had before. -/
theorem node_apply_size (forest : Forest) (kind : Kind) (label : String)
    (operands : List NodeId) :
    (forest.apply kind label operands).node forest.size = { kind, label, operands } := by
  have hsize : (forest.adopt forest.size operands).nodes.size = forest.size :=
    size_adopt forest forest.size operands
  rw [apply, node, Array.getElem?_push, if_pos hsize.symm]
  rfl

theorem node_apply_of_lt {forest : Forest} {kind : Kind} {label : String}
    {operands : List NodeId} {id : NodeId} (h : id < forest.size) :
    (forest.apply kind label operands).node id =
      (forest.adopt forest.size operands).node id := by
  have hne : id ≠ (forest.adopt forest.size operands).nodes.size := by
    have hsize : (forest.adopt forest.size operands).nodes.size = forest.size :=
      size_adopt forest forest.size operands
    exact Nat.ne_of_lt (Nat.lt_of_lt_of_eq h hsize.symm)
  rw [apply, node, Array.getElem?_push, if_neg hne]
  rfl

/-- A node that is no operand of the new one does not even get a parent. -/
theorem node_apply_of_not_mem {forest : Forest} {kind : Kind} {label : String}
    {operands : List NodeId} {id : NodeId} (h : id < forest.size) (hmem : id ∉ operands) :
    (forest.apply kind label operands).node id = forest.node id := by
  rw [node_apply_of_lt h, node_adopt, if_neg fun hboth => hmem hboth.1]

/-- Adding a node keeps the nodes that were there. -/
theorem extends_apply (forest : Forest) (kind : Kind) (label : String)
    (operands : List NodeId) : forest.Extends (forest.apply kind label operands) := by
  have hadopt := extends_adopt forest forest.size operands
  refine ⟨by simp, ?_, ?_, ?_⟩
  · intro id hid
    rw [node_apply_of_lt hid, hadopt.kind_eq id hid]
  · intro id hid
    rw [node_apply_of_lt hid, hadopt.label_eq id hid]
  · intro id hid
    rw [node_apply_of_lt hid, hadopt.operands_eq id hid]

/-!
### Terms of a growing forest
-/

/-- The term of a node is made of the node and the terms of its operands. -/
theorem term_eq (forest : Forest) (id : NodeId) :
    forest.term id =
      .node (forest.node id).kind (forest.node id).label
        ((forest.operandsOf id).map forest.term) :=
  fold_eq forest _ id

/-- A node stands for the same term however much the forest grows. -/
theorem Extends.term_eq {old new : Forest} (h : old.Extends new) {id : NodeId}
    (hid : id < old.size) : new.term id = old.term id := by
  induction id using Nat.strongRecOn with
  | ind id ih =>
      have hoperands : new.operandsOf id = old.operandsOf id := by
        rw [operandsOf, operandsOf, h.operands_eq id hid]
      have hterms : (old.operandsOf id).map new.term = (old.operandsOf id).map old.term := by
        apply List.map_congr_left
        intro operand hmem
        have hlt := lt_of_mem_operandsOf hmem
        exact ih operand hlt (Nat.lt_trans hlt hid)
      rw [Forest.term_eq, Forest.term_eq old, h.kind_eq id hid, h.label_eq id hid, hoperands,
        hterms]

/-- The new node stands for its operator applied to the terms of its operands. -/
theorem term_apply {forest : Forest} {kind : Kind} {label : String} {operands : List NodeId}
    (h : ∀ operand ∈ operands, operand < forest.size) :
    (forest.apply kind label operands).term forest.size =
      .node kind label (operands.map forest.term) := by
  have hnode := node_apply_size forest kind label operands
  have hoperands : (forest.apply kind label operands).operandsOf forest.size = operands := by
    rw [operandsOf, hnode]
    exact List.filter_eq_self.2 fun operand hmem => by simpa using h operand hmem
  have hterms : operands.map (forest.apply kind label operands).term =
      operands.map forest.term := by
    apply List.map_congr_left
    intro operand hmem
    exact (extends_apply forest kind label operands).term_eq (h operand hmem)
  rw [term_eq, hoperands, hnode, hterms]

end OperatorTerms.Forest
