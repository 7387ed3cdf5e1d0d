/-
Module: OperatorTerms.Proofs.NodeDepth
Layer: Proofs
Purpose: How deep a node stands. Its depth is counted on the way up, from parent to parent, while a
  tree is read on the way down, from operand to operand. In the tree of a parse the way up from a
  node retraces the one way down to it, step by step, so it ends at the root and has as many steps;
  and the deepest node stands at the end of a longest way down, which is what the height of the term
  measures.
Imports: OperatorTerms.Proofs.TreeAccess
Main exports: Forest.Owned.climb?_of_address, Forest.Owned.depth_of_address,
  Term.Formed.depth_lt, Term.Formed.exists_deepest, maxDepth_of_parse, depth_of_parse
-/
import OperatorTerms.Proofs.TreeAccess

namespace OperatorTerms

/-! ### The way up -/

namespace Forest.Owned

variable {forest : Forest} {root id : NodeId} {path : List Nat}

/-- The way up takes as many steps as the way down, neither more nor fewer. -/
theorem climb?_of_address (h : forest.Owned [root]) (hpath : forest.Address root id path)
    (count steps : Nat) :
    forest.climb? steps count (forest.node id).parent =
      if path.length ≤ steps then some (count + path.length) else none := by
  induction hpath generalizing count steps with
  | root =>
      rw [h.parent_root]
      simp [climb?]
  | @operand holder id place path _ hplace ih =>
      have hmem := List.mem_of_getElem? hplace
      rw [(h.parent_iff id holder).2 hmem]
      cases steps with
      | zero => simp [climb?]
      | succ steps =>
          have hlength : count + 1 + path.length = count + (path.length + 1) := by omega
          rw [climb?, getElem?_nodes (lt_size_of_mem_operands hmem), Option.bind_eq_bind,
            Option.bind_some, ih, List.length_cons, hlength]
          simp only [Nat.add_le_add_iff_right]

/-- The depth counts the nodes on the way down, the root included. -/
theorem depth_of_address (h : forest.Owned [root]) (hpath : forest.Address root id path) :
    forest.depth id = 1 + path.length := by
  induction hpath with
  | root => exact h.depth_root
  | operand _ hplace ih =>
      rw [h.depth_operand (List.mem_of_getElem? hplace), ih, List.length_cons, Nat.add_assoc]

end Forest.Owned

/-! ### The deepest node -/

namespace Term.Formed

variable {tokens : List Token} {term : Term} {depth : Nat}

/-- No node of a term is deeper than its height allows. -/
theorem depth_lt (h : term.Formed tokens) :
    ∀ entry ∈ term.entries depth, entry.depth < depth + term.height := by
  induction h generalizing depth with
  | atom _ => simp [entries, height, heightAll]
  | unary _ _ ih =>
      simp only [entries, entriesAll, height, heightAll, List.forall_mem_append,
        List.forall_mem_singleton]
      refine ⟨fun entry hmem => ?_, by omega⟩
      have hlt := ih entry hmem
      omega
  | infixed _ _ _ ihleft ihright =>
      simp only [entries, entriesAll, height, heightAll, List.append_nil, List.forall_mem_append,
        List.forall_mem_cons]
      refine ⟨fun entry hmem => ?_, by omega, fun entry hmem => ?_⟩
      · have hlt := ihleft entry hmem
        omega
      · have hlt := ihright entry hmem
        omega

/-- Some node of a term is as deep as its height allows. -/
theorem exists_deepest (h : term.Formed tokens) :
    ∃ entry ∈ term.entries depth, entry.depth + 1 = depth + term.height := by
  induction h generalizing depth with
  | atom _ => simp [entries, height, heightAll]
  | @unary kind label operand _ _ ih =>
      obtain ⟨entry, hmem, hdepth⟩ := @ih (depth + 1)
      refine ⟨entry, ?_, ?_⟩
      · simp [entries, entriesAll, hmem]
      · simp only [height, heightAll]
        omega
  | @infixed kind label left right _ _ _ ihleft ihright =>
      obtain ⟨entry, hmem, hdepth⟩ := @ihleft (depth + 1)
      obtain ⟨entry', hmem', hdepth'⟩ := @ihright (depth + 1)
      -- The deepest node is that of the operand that is at least as high as the other one.
      rcases Nat.le_total right.height left.height with hle | hle
      · refine ⟨entry, ?_, ?_⟩
        · simp [entries, entriesAll, hmem]
        · simp only [height, heightAll]
          omega
      · refine ⟨entry', ?_, ?_⟩
        · simp [entries, entriesAll, hmem']
        · simp only [height, heightAll]
          omega

end Term.Formed

variable {tokens : List Token} {tree : Tree}

theorem maxDepth_of_parse (hparse : parse tokens = .ok tree) :
    tree.maxDepth = tree.term.height := by
  have hformed := formed_of_parse hparse
  have hdepths : tree.postOrder.map tree.depth = (tree.term.entries 1).map Entry.depth := by
    rw [← (whole_of_parse hparse).entries_eq, Tree.entries, List.map_map]
    rfl
  have hmax : ((tree.term.entries 1).map Entry.depth).max? = some tree.term.height := by
    rw [List.max?_eq_some_iff, List.mem_map]
    constructor
    · obtain ⟨entry, hmem, hdepth⟩ := @Term.Formed.exists_deepest _ _ 1 hformed
      exact ⟨entry, hmem, by omega⟩
    · intro depth hdepth
      obtain ⟨entry, hmem, rfl⟩ := List.mem_map.1 hdepth
      have hlt := hformed.depth_lt entry hmem
      omega
  rw [Tree.maxDepth, hdepths, hmax]
  rfl

/-- In the tree of a parse there is one way down to every node that can be reached at all. The way
    up from the node, whatever bound is put on its steps, ends if the bound allows as many as the way
    down has, and the depth counts these and the node itself. So an operand is one level deeper than
    its holder, and the greatest depth is the height of the term. -/
theorem depth_of_parse (hparse : parse tokens = .ok tree) :
    (∀ id path, tree.forest.Address tree.root id path →
      (∀ other, tree.forest.Address tree.root id other → other = path) ∧
      (∀ steps, tree.forest.climb? steps 1 (tree.node id).parent =
        if path.length ≤ steps then some (1 + path.length) else none) ∧
      tree.depth id = 1 + path.length ∧
      ∀ operand ∈ (tree.node id).operands, tree.depth operand = tree.depth id + 1) ∧
    tree.maxDepth = tree.term.height := by
  have howned := (whole_of_parse hparse).owned
  refine ⟨fun id path hpath => ⟨?_, ?_, ?_, ?_⟩, maxDepth_of_parse hparse⟩
  · intro other hother
    exact howned.address_unique hother hpath
  · exact howned.climb?_of_address hpath 1
  · exact howned.depth_of_address hpath
  · intro operand hmem
    exact howned.depth_operand hmem

/-- The last variable of an assignment with an operator on its right: two steps down, and two up. -/
theorem depth_of_nested_operators :
    ∃ tree, parse [⟨.var, "v1", ""⟩, ⟨.assign, "a2", ""⟩, ⟨.var, "v3", ""⟩, ⟨.dyad, "d4", ""⟩,
        ⟨.var, "v5", ""⟩] = .ok tree ∧
      tree.forest.Address tree.root 2 [1, 1] ∧
      tree.forest.climb? 1 1 (tree.node 2).parent = none ∧
      tree.forest.climb? 2 1 (tree.node 2).parent = some 3 ∧
      tree.depth 2 = 3 ∧ tree.maxDepth = 3 := by
  have hparse : parse [⟨.var, "v1", ""⟩, ⟨.assign, "a2", ""⟩, ⟨.var, "v3", ""⟩,
      ⟨.dyad, "d4", ""⟩, ⟨.var, "v5", ""⟩] =
      .ok ⟨⟨#[⟨.var, "v1", [], some 4⟩, ⟨.var, "v3", [], some 3⟩, ⟨.var, "v5", [], some 3⟩,
        ⟨.dyad, "d4", [1, 2], some 4⟩, ⟨.assign, "a2", [0, 3], none⟩]⟩, 4⟩ := by
    decide +kernel
  obtain ⟨hnodes, hmax⟩ := depth_of_parse hparse
  obtain ⟨-, hclimb, hdepth, -⟩ := hnodes 2 [1, 1] (.operand (.operand .root rfl) rfl)
  exact ⟨_, hparse, .operand (.operand .root rfl) rfl, hclimb 1, hclimb 2, hdepth,
    hmax.trans (by decide +kernel)⟩

end OperatorTerms
