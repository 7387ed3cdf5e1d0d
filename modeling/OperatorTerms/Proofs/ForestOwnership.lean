/-
Module: OperatorTerms.Proofs.ForestOwnership
Layer: Proofs
Purpose: Who holds whom in a forest. Operand lists and parent fields say the same: a node is an
  operand of its parent, in one place, and of no other node. The nodes without a parent are the
  roots. A node built on roots makes them its operands and becomes a root in their stead, so this
  stays true of a forest that only grows that way. When a single root is left, every node can be
  reached from it in exactly one way.
Imports: Mathlib.Data.List.Nodup, OperatorTerms.Proofs.ForestGrowth
Main exports: Forest.Owned, Forest.Owned.apply, Forest.Every, Forest.Every.apply, Forest.Address,
  Forest.Owned.existsUnique_address
-/
import Mathlib.Data.List.Nodup
import OperatorTerms.Proofs.ForestGrowth

namespace OperatorTerms.Forest

/-- The given nodes are those that no node has among its operands, and every other node is in one
    place of one operand list. -/
structure Owned (forest : Forest) (roots : List NodeId) : Prop where
  older : ∀ holder, ∀ operand ∈ (forest.node holder).operands, operand < holder
  nodup : ∀ holder, (forest.node holder).operands.Nodup
  /-- Since a node has one parent at most, it has one holder at most. -/
  parent_iff : ∀ operand holder,
    (forest.node operand).parent = some holder ↔ operand ∈ (forest.node holder).operands
  nodup_roots : roots.Nodup
  mem_roots_iff : ∀ id, id ∈ roots ↔ id < forest.size ∧ (forest.node id).parent = none

/-- Every node is of a kind, a label and a number of operands that go together. -/
def Every (legal : Kind → String → Nat → Prop) (forest : Forest) : Prop :=
  ∀ id < forest.size,
    legal (forest.node id).kind (forest.node id).label (forest.node id).operands.length

variable {forest : Forest} {kind : Kind} {label : String} {operands roots rest : List NodeId}
  {id operand holder : NodeId}

/-! ### Nodes after adding one -/

theorem node_of_size_le (h : forest.size ≤ id) : forest.node id = default := by
  rw [node, Array.getElem?_eq_none h]
  rfl

theorem operands_of_size_le (h : forest.size ≤ id) : (forest.node id).operands = [] := by
  rw [node_of_size_le h]
  rfl

theorem parent_of_size_le (h : forest.size ≤ id) : (forest.node id).parent = none := by
  rw [node_of_size_le h]
  rfl

theorem lt_size_of_mem_operands (h : operand ∈ (forest.node holder).operands) :
    holder < forest.size := by
  by_contra hsize
  rw [operands_of_size_le (Nat.le_of_not_lt hsize)] at h
  contradiction

theorem operands_apply (forest : Forest) (kind : Kind) (label : String) (operands : List NodeId)
    (id : NodeId) :
    ((forest.apply kind label operands).node id).operands =
      if id = forest.size then operands else (forest.node id).operands := by
  split
  · rename_i hid
    rw [hid, node_apply_size]
  · rename_i hid
    rcases Nat.lt_or_gt_of_ne hid with hlt | hgt
    · exact (forest.extends_apply kind label operands).operands_eq id hlt
    · rw [operands_of_size_le (Nat.le_of_lt hgt), operands_of_size_le]
      rw [size_apply]
      exact hgt

theorem parent_apply (forest : Forest) (kind : Kind) (label : String) (operands : List NodeId)
    (id : NodeId) :
    ((forest.apply kind label operands).node id).parent =
      if id ∈ operands ∧ id < forest.size then some forest.size else (forest.node id).parent := by
  rcases Nat.lt_trichotomy id forest.size with hlt | rfl | hgt
  · rw [node_apply_of_lt hlt, node_adopt]
    split <;> rfl
  · rw [node_apply_size, parent_of_size_le (Nat.le_refl _), if_neg (by simp)]
  · have hnot : ¬ (id ∈ operands ∧ id < forest.size) := fun h => Nat.lt_asymm hgt h.2
    rw [if_neg hnot, parent_of_size_le (Nat.le_of_lt hgt), parent_of_size_le]
    rw [size_apply]
    exact hgt

/-! ### Building on roots -/

namespace Owned

theorem initial : Owned {} [] := by
  have hoperands (id : NodeId) : (node {} id).operands = [] :=
    operands_of_size_le (Nat.zero_le id)
  have hparent (id : NodeId) : (node {} id).parent = none := parent_of_size_le (Nat.zero_le id)
  refine ⟨?_, ?_, ?_, List.nodup_nil, ?_⟩
  · simp [hoperands]
  · simp [hoperands]
  · simp [hoperands, hparent]
  · simp [size]

/-- A node built on roots takes their place among the roots. -/
theorem apply (h : forest.Owned roots) (hperm : roots.Perm (operands ++ rest)) :
    (forest.apply kind label operands).Owned (forest.size :: rest) := by
  have hnodup := hperm.nodup_iff.1 h.nodup_roots
  obtain ⟨hoperands, hrest, hdisjoint⟩ := List.nodup_append.1 hnodup
  have hroot : ∀ operand ∈ operands,
      operand < forest.size ∧ (forest.node operand).parent = none := fun operand hmem =>
    (h.mem_roots_iff operand).1 (hperm.mem_iff.2 (List.mem_append_left _ hmem))
  have hnew_operands : (forest.node forest.size).operands = [] :=
    operands_of_size_le (Nat.le_refl _)
  refine ⟨?_, ?_, ?_, ?_, ?_⟩
  · intro holder operand hmem
    rw [operands_apply] at hmem
    split at hmem
    · rename_i hholder
      exact hholder ▸ (hroot operand hmem).1
    · exact h.older holder operand hmem
  · intro holder
    rw [operands_apply]
    split
    · exact hoperands
    · exact h.nodup holder
  · intro operand holder
    rw [operands_apply, parent_apply]
    by_cases hmem : operand ∈ operands
    · obtain ⟨hlt, hnone⟩ := hroot operand hmem
      rw [if_pos ⟨hmem, hlt⟩]
      split
      · rename_i hholder
        simp [hmem, hholder]
      · rename_i hholder
        rw [← h.parent_iff, hnone]
        simp [Ne.symm hholder]
    · rw [if_neg (fun hboth => hmem hboth.1), h.parent_iff]
      split
      · rename_i hholder
        simp [hholder, hnew_operands, hmem]
      · rfl
  · refine List.nodup_cons.2 ⟨?_, hrest⟩
    intro hmem
    have hlt := ((h.mem_roots_iff _).1 (hperm.mem_iff.2 (List.mem_append_right _ hmem))).1
    exact Nat.lt_irrefl _ hlt
  · intro id
    rw [parent_apply, size_apply, List.mem_cons]
    by_cases hmem : id ∈ operands
    · obtain ⟨hlt, -⟩ := hroot id hmem
      have hnot : id ∉ rest := fun hrest => hdisjoint id hmem id hrest rfl
      simp [hmem, hlt, hnot, Nat.ne_of_lt hlt]
    · have hmem_rest : id ∈ rest ↔ id < forest.size ∧ (forest.node id).parent = none := by
        rw [← h.mem_roots_iff, hperm.mem_iff, List.mem_append]
        simp [hmem]
      rw [if_neg (fun hboth => hmem hboth.1), hmem_rest]
      constructor
      · rintro (rfl | ⟨hlt, hnone⟩)
        · exact ⟨Nat.lt_succ_self _, parent_of_size_le (Nat.le_refl _)⟩
        · exact ⟨Nat.lt_succ_of_lt hlt, hnone⟩
      · rintro ⟨hlt, hnone⟩
        rcases Nat.lt_succ_iff_lt_or_eq.1 hlt with hlt | hid
        · exact .inr ⟨hlt, hnone⟩
        · exact .inl hid

end Owned

theorem Every.apply {legal : Kind → String → Nat → Prop} (h : forest.Every legal)
    (hnew : legal kind label operands.length) :
    (forest.apply kind label operands).Every legal := by
  intro id hid
  rw [size_apply] at hid
  rcases Nat.lt_succ_iff_lt_or_eq.1 hid with hlt | rfl
  · have hextends := forest.extends_apply kind label operands
    rw [hextends.kind_eq id hlt, hextends.label_eq id hlt, hextends.operands_eq id hlt]
    exact h id hlt
  · rw [node_apply_size]
    exact hnew

/-! ### Ways from the root -/

/-- How a node is reached from the root: at each step, which operand is taken, the last step
    first. -/
inductive Address (forest : Forest) (root : NodeId) : NodeId → List Nat → Prop where
  | root : Address forest root root []
  | operand {holder operand : NodeId} {place : Nat} {path : List Nat} :
      Address forest root holder path → (forest.node holder).operands[place]? = some operand →
        Address forest root operand (place :: path)

namespace Owned

variable {root : NodeId}

theorem parent_root (h : forest.Owned [root]) : (forest.node root).parent = none :=
  ((h.mem_roots_iff root).1 List.mem_cons_self).2

/-- Going up from any node leads to the only root. -/
theorem exists_address (h : forest.Owned [root]) (hid : id < forest.size) :
    ∃ path, forest.Address root id path := by
  -- Parents are newer, so the induction is on the number of nodes that are newer than this one.
  induction hnewer : forest.size - id using Nat.strongRecOn generalizing id with
  | ind newer ih =>
      cases hparent : (forest.node id).parent with
      | none =>
          have hroot := (h.mem_roots_iff id).2 ⟨hid, hparent⟩
          rw [List.mem_singleton.1 hroot]
          exact ⟨[], .root⟩
      | some holder =>
          have hmem := (h.parent_iff id holder).1 hparent
          have holder_lt := lt_size_of_mem_operands hmem
          have hlt := h.older holder id hmem
          obtain ⟨path, hpath⟩ := ih _ (hnewer ▸ Nat.sub_lt_sub_left hid hlt) holder_lt rfl
          obtain ⟨place, hplace⟩ := List.mem_iff_getElem?.1 hmem
          exact ⟨place :: path, .operand hpath hplace⟩

/-- Two ways to a node take the same last step, and so on up to the root. -/
theorem address_unique (h : forest.Owned [root]) {path other : List Nat}
    (hpath : forest.Address root id path) (hother : forest.Address root id other) :
    path = other := by
  have hroot (holder : NodeId) : root ∉ (forest.node holder).operands := by
    intro hmem
    have hparent := (h.parent_iff root holder).2 hmem
    rw [h.parent_root] at hparent
    contradiction
  induction hpath generalizing other with
  | root =>
      cases hother with
      | root => rfl
      | operand _ hplace => exact absurd (List.mem_of_getElem? hplace) (hroot _)
  | @operand holder id place path _ hplace ih =>
      cases hother with
      | root => exact absurd (List.mem_of_getElem? hplace) (hroot _)
      | @operand holder' _ place' path' haddress hplace' =>
          have hparent := (h.parent_iff id holder).2 (List.mem_of_getElem? hplace)
          have hparent' := (h.parent_iff id holder').2 (List.mem_of_getElem? hplace')
          obtain rfl : holder = holder' := Option.some.inj (hparent.symm.trans hparent')
          obtain ⟨hlt, hget⟩ := List.getElem?_eq_some_iff.1 hplace
          obtain ⟨hlt', hget'⟩ := List.getElem?_eq_some_iff.1 hplace'
          have hplaces : place = place' :=
            (h.nodup holder).getElem_inj_iff.1 (hget.trans hget'.symm)
          rw [hplaces, ih haddress]

/-- With a single root, every node is reached in exactly one way. -/
theorem existsUnique_address (h : forest.Owned [root]) (hid : id < forest.size) :
    ∃! path, forest.Address root id path := by
  obtain ⟨path, hpath⟩ := h.exists_address hid
  exact ⟨path, hpath, fun other hother => h.address_unique hother hpath⟩

end Owned

end OperatorTerms.Forest
