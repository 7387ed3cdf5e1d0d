/-
Module: OperatorTerms.Proofs.TraversalOrder
Layer: Proofs
Purpose: What the walk over a tree tells of it. The walk comes across the nodes of the first
  operand, the node, and the nodes of the other operands; in a forest with an owner for each node
  an operand is one level deeper than its holder. So the kinds, labels and depths along the walk
  are those that can be read off the term, and since a node is the only one of its depth among the
  nodes at and below it, they determine the term. Each node is reached in one way, so the walk comes
  across it once.
Imports: OperatorTerms.Proofs.ReachableStates
Main exports: Entry, Term.entries, Tree.entries, Term.Formed, Forest.Older,
  Forest.postOrder_eq_order, Forest.Owned.depth_operand, Forest.order_isInfix,
  Tree.Whole.entries_eq, Tree.Whole.nodup_postOrder, formed_of_parse,
  Term.Formed.entries_injective
-/
import OperatorTerms.Proofs.ReachableStates

namespace OperatorTerms

/-- A node as the walk comes across it. -/
structure Entry where
  depth : Nat
  kind : Kind
  label : String
deriving DecidableEq, Repr

namespace Term

mutual

/-- The nodes of a term in the order of the walk, if the outermost one is at the given depth. -/
def entries (depth : Nat) : Term → List Entry
  | node kind label [] => [⟨depth, kind, label⟩]
  | node kind label (first :: rest) =>
      first.entries (depth + 1) ++ ⟨depth, kind, label⟩ :: entriesAll (depth + 1) rest

/-- The nodes of several terms, one term after the other. -/
def entriesAll (depth : Nat) : List Term → List Entry
  | [] => []
  | operand :: rest => operand.entries depth ++ entriesAll depth rest

end

/-- A term whose nodes are made of a sequence and have the operands that their kinds call for. -/
inductive Formed (tokens : List Token) : Term → Prop where
  | atom {kind : Kind} {label : String} : Made tokens kind label 0 →
      Formed tokens (node kind label [])
  | unary {kind : Kind} {label : String} {operand : Term} : Made tokens kind label 1 →
      Formed tokens operand → Formed tokens (node kind label [operand])
  | infixed {kind : Kind} {label : String} {left right : Term} : Made tokens kind label 2 →
      Formed tokens left → Formed tokens right → Formed tokens (node kind label [left, right])

/-- The nodes of the first operand come before the outermost node, those of the others after it. -/
theorem entries_node (depth : Nat) (kind : Kind) (label : String) (operands : List Term) :
    (node kind label operands).entries depth =
      entriesAll (depth + 1) (operands.take 1) ++
        ⟨depth, kind, label⟩ :: entriesAll (depth + 1) (operands.drop 1) := by
  cases operands with
  | nil => rfl
  | cons first rest => simp [entries, entriesAll]

theorem root_mem_entries (depth : Nat) (term : Term) :
    ⟨depth, term.kind, term.label⟩ ∈ term.entries depth := by
  rcases term with ⟨kind, label, operands⟩
  simp [entries_node, Term.kind, Term.label]

theorem entriesAll_eq_flatMap (depth : Nat) (terms : List Term) :
    entriesAll depth terms = terms.flatMap (entries depth) := by
  induction terms with
  | nil => rfl
  | cons operand rest ih => rw [entriesAll, ih, List.flatMap_cons]

end Term

namespace Forest

variable {forest : Forest} {roots : List NodeId} {id operand holder other : NodeId}

/-! ### The order of the walk -/

/-- Operands are older than the nodes that hold them. -/
def Older (forest : Forest) : Prop :=
  ∀ holder, ∀ operand ∈ (forest.node holder).operands, operand < holder

/-- Where operands are older, none of them is left out of the walk. -/
theorem Older.operandsOf_eq (h : forest.Older) (id : NodeId) :
    forest.operandsOf id = (forest.node id).operands :=
  List.filter_eq_self.2 fun operand hmem => decide_eq_true (h id operand hmem)

theorem order_eq (forest : Forest) (id : NodeId) :
    forest.order id =
      match forest.operandsOf id with
      | [] => [id]
      | first :: rest => forest.order first ++ id :: rest.flatMap forest.order := by
  rw [order, fold_eq]
  cases forest.operandsOf id with
  | nil => rfl
  | cons first rest => exact congrArg (forest.order first ++ id :: ·) (List.flatMap_def ..).symm

/-- The nodes that a pending visit will list. -/
def Visit.nodes (forest : Forest) : Visit → List NodeId
  | expand id => forest.order id
  | emit id => [id]

theorem visit_eq_flatMap (forest : Forest) (pending : List Visit) :
    forest.visit pending = pending.flatMap (Visit.nodes forest) := by
  fun_induction visit forest pending with
  | case1 => rfl
  | case2 id pending ih => exact congrArg (id :: ·) ih
  | case3 id pending hoperands ih =>
      rw [ih, List.flatMap_cons, Visit.nodes, order_eq, hoperands]
      rfl
  | case4 id pending first rest hoperands ih =>
      rw [ih]
      simp [Visit.nodes, order_eq forest id, hoperands, List.flatMap_map]

theorem postOrder_eq_order (forest : Forest) (id : NodeId) :
    forest.postOrder id = forest.order id := by
  rw [postOrder, visit_eq_flatMap]
  exact List.append_nil _

/-! ### Depths -/

namespace Owned

theorem operandsOf_eq (h : forest.Owned roots) (id : NodeId) :
    forest.operandsOf id = (forest.node id).operands :=
  Older.operandsOf_eq h.older id

theorem depth_root {root : NodeId} (h : forest.Owned [root]) : forest.depth root = 1 := by
  rw [depth, parentOf?, h.parent_root]
  rfl

/-- An operand is one level deeper than its holder. -/
theorem depth_operand (h : forest.Owned roots) (hmem : operand ∈ (forest.node holder).operands) :
    forest.depth operand = forest.depth holder + 1 := by
  have hparent : forest.parentOf? operand = some holder := by
    rw [parentOf?, (h.parent_iff operand holder).2 hmem]
    simp [Option.filter, h.older holder operand hmem, lt_size_of_mem_operands hmem]
  rw [depth]
  split
  · rename_i hnone
    rw [hparent] at hnone
    contradiction
  · rename_i parent hsome
    cases hparent.symm.trans hsome
    rfl

end Owned

/-! ### Each node once -/

/-- Apart from its place, a node is listed before the nodes of its operands. -/
theorem perm_order (forest : Forest) (id : NodeId) :
    (forest.order id).Perm (id :: (forest.operandsOf id).flatMap forest.order) := by
  rw [order_eq]
  cases forest.operandsOf id with
  | nil => exact .refl _
  | cons first rest =>
      rw [List.flatMap_cons]
      exact List.perm_middle

theorem mem_order_iff : other ∈ forest.order id ↔
    other = id ∨ ∃ operand ∈ forest.operandsOf id, other ∈ forest.order operand := by
  rw [(perm_order forest id).mem_iff, List.mem_cons, List.mem_flatMap]

/-- The walk goes from a node to older ones only. -/
theorem le_of_mem_order (h : other ∈ forest.order id) : other ≤ id := by
  induction id using Nat.strongRecOn with
  | ind id ih =>
      rcases mem_order_iff.1 h with rfl | ⟨operand, hoperand, hmem⟩
      · exact Nat.le_refl _
      · have hlt := lt_of_mem_operandsOf hoperand
        exact Nat.le_trans (ih operand hlt hmem) (Nat.le_of_lt hlt)

/-- The nodes at and below a node are listed together. -/
theorem order_isInfix (h : other ∈ forest.order id) : forest.order other <:+: forest.order id := by
  induction id using Nat.strongRecOn with
  | ind id ih =>
      rcases mem_order_iff.1 h with rfl | ⟨operand, hoperand, hmem⟩
      · exact List.infix_rfl
      · refine (ih operand (lt_of_mem_operandsOf hoperand) hmem).trans ?_
        rw [order_eq forest id]
        cases hoperands : forest.operandsOf id with
        | nil => simp [hoperands] at hoperand
        | cons first rest =>
            rw [hoperands] at hoperand
            rcases List.mem_cons.1 hoperand with rfl | hoperand
            · exact List.prefix_append .. |>.isInfix
            · have hrest : forest.order operand <:+: rest.flatMap forest.order := by
                rw [List.flatMap_def]
                exact List.infix_of_mem_flatten (List.mem_map_of_mem hoperand)
              exact hrest.trans ((List.suffix_cons ..).trans (List.suffix_append ..)).isInfix

namespace Owned

variable {root : NodeId} {path : List Nat}

/-- The way to a node below another one leads through the other one. -/
theorem exists_address_of_mem_order (h : forest.Owned roots)
    (hpath : forest.Address root id path) (hmem : other ∈ forest.order id) :
    ∃ steps, forest.Address root other (steps ++ path) := by
  induction id using Nat.strongRecOn generalizing path with
  | ind id ih =>
      rcases mem_order_iff.1 hmem with rfl | ⟨operand, hoperand, hmem⟩
      · exact ⟨[], hpath⟩
      · have hlt := lt_of_mem_operandsOf hoperand
        rw [h.operandsOf_eq] at hoperand
        obtain ⟨place, hplace⟩ := List.mem_iff_getElem?.1 hoperand
        obtain ⟨steps, hsteps⟩ := ih operand hlt (.operand hpath hplace) hmem
        exact ⟨steps ++ [place], by simpa using hsteps⟩

/-- No node is below two operands of a node, for there is only one way to it. -/
theorem disjoint_order (h : forest.Owned [root]) (hpath : forest.Address root id path)
    {operand' : NodeId} (hoperand : operand ∈ (forest.node id).operands)
    (hoperand' : operand' ∈ (forest.node id).operands) (hne : operand ≠ operand') :
    List.Disjoint (forest.order operand) (forest.order operand') := by
  intro other hmem hmem'
  obtain ⟨place, hplace⟩ := List.mem_iff_getElem?.1 hoperand
  obtain ⟨place', hplace'⟩ := List.mem_iff_getElem?.1 hoperand'
  obtain ⟨steps, hsteps⟩ := h.exists_address_of_mem_order (.operand hpath hplace) hmem
  obtain ⟨steps', hsteps'⟩ := h.exists_address_of_mem_order (.operand hpath hplace') hmem'
  have hways := h.address_unique hsteps hsteps'
  have hplaces := (List.append_inj' hways rfl).2
  rw [List.cons.injEq] at hplaces
  rw [hplaces.1] at hplace
  exact hne (Option.some.inj (hplace.symm.trans hplace'))

theorem nodup_order (h : forest.Owned [root]) (hpath : forest.Address root id path) :
    (forest.order id).Nodup := by
  induction id using Nat.strongRecOn generalizing path with
  | ind id ih =>
      rw [(perm_order forest id).nodup_iff, List.nodup_cons, List.nodup_flatMap,
        h.operandsOf_eq]
      refine ⟨?_, ?_, ?_⟩
      · rw [List.mem_flatMap]
        rintro ⟨operand, hoperand, hmem⟩
        exact Nat.not_le_of_lt (h.older id operand hoperand) (le_of_mem_order hmem)
      · intro operand hoperand
        obtain ⟨place, hplace⟩ := List.mem_iff_getElem?.1 hoperand
        exact ih operand (h.older id operand hoperand) (.operand hpath hplace)
      · exact (h.nodup id).imp_of_mem fun hoperand hoperand' hne =>
          h.disjoint_order hpath hoperand hoperand' hne

end Owned

/-! ### Entries -/

/-- A node with its depth. -/
def entry (forest : Forest) (id : NodeId) : Entry :=
  ⟨forest.depth id, (forest.node id).kind, (forest.node id).label⟩

theorem Owned.map_entry_order (h : forest.Owned roots) (id : NodeId) :
    (forest.order id).map forest.entry = (forest.term id).entries (forest.depth id) := by
  induction id using Nat.strongRecOn with
  | ind id ih =>
      have hoperand : ∀ operand ∈ forest.operandsOf id,
          (forest.order operand).map forest.entry =
            (forest.term operand).entries (forest.depth id + 1) := by
        intro operand hmem
        rw [ih operand (lt_of_mem_operandsOf hmem),
          h.depth_operand (h.operandsOf_eq id ▸ hmem)]
      rw [order_eq, term_eq]
      cases hoperands : forest.operandsOf id with
      | nil => rfl
      | cons first rest =>
          rw [hoperands] at hoperand
          obtain ⟨hfirst, hrest⟩ := List.forall_mem_cons.1 hoperand
          have hrest : (rest.flatMap forest.order).map forest.entry =
              Term.entriesAll (forest.depth id + 1) (rest.map forest.term) := by
            rw [Term.entriesAll_eq_flatMap, List.map_flatMap, List.flatMap_map]
            exact List.flatMap_congr hrest
          rw [List.map_append, List.map_cons, hfirst, hrest, List.map_cons, Term.entries]
          rfl

/-- What every node is made of shows in the terms. -/
theorem Owned.formed (h : forest.Owned roots) {tokens : List Token}
    (hmade : forest.Every (Made tokens)) (hid : id < forest.size) :
    (forest.term id).Formed tokens := by
  induction id using Nat.strongRecOn with
  | ind id ih =>
      have hoperand : ∀ operand ∈ (forest.node id).operands,
          (forest.term operand).Formed tokens := fun operand hmem =>
        ih operand (h.older id operand hmem) (Nat.lt_trans (h.older id operand hmem) hid)
      have hnode := hmade id hid
      rw [term_eq, h.operandsOf_eq]
      generalize hoperands : (forest.node id).operands = operands at hoperand hnode
      match operands, hoperand, hnode with
      | [], _, hnode => exact .atom hnode
      | [operand], hoperand, hnode => exact .unary hnode (hoperand operand (by simp))
      | [left, right], hoperand, hnode =>
          exact .infixed hnode (hoperand left (by simp)) (hoperand right (by simp))
      | _ :: _ :: _ :: _, _, hnode =>
          -- No kind calls for more than two operands.
          have harity := hnode.arity?_eq
          revert harity
          cases (forest.node id).kind <;> simp [Kind.arity?]

end Forest

/-! ### Trees -/

/-- The nodes of a tree in the order of the walk. -/
def Tree.entries (tree : Tree) : List Entry := tree.postOrder.map tree.forest.entry

theorem Tree.Whole.entries_eq {tree : Tree} (h : tree.Whole) :
    tree.entries = tree.term.entries 1 := by
  rw [Tree.entries, postOrder, Forest.postOrder_eq_order, h.owned.map_entry_order,
    h.owned.depth_root, term]

theorem Tree.Whole.lt_size_of_mem_postOrder {tree : Tree} {id : NodeId} (h : tree.Whole)
    (hmem : id ∈ tree.postOrder) : id < tree.forest.size := by
  rw [postOrder, Forest.postOrder_eq_order] at hmem
  exact Nat.lt_of_le_of_lt (Forest.le_of_mem_order hmem) h.root_lt

/-- The walk over a tree comes across each node once. -/
theorem Tree.Whole.nodup_postOrder {tree : Tree} (h : tree.Whole) : tree.postOrder.Nodup := by
  rw [postOrder, Forest.postOrder_eq_order]
  exact h.owned.nodup_order .root

theorem formed_of_parse {tokens : List Token} {tree : Tree} (h : parse tokens = .ok tree) :
    tree.term.Formed tokens := by
  obtain ⟨log, hreachable⟩ := exists_reachable_of_parse h
  obtain ⟨howned, hmade, -⟩ := hreachable.intact
  have hroot := (howned.mem_roots_iff tree.root).1 List.mem_cons_self
  exact howned.formed hmade hroot.1

/-! ### Reading the term off the walk -/

namespace Term.Formed

variable {tokens tokens' : List Token} {term term' : Term} {kind kind' : Kind}
  {label label' : String} {operands operands' : List Term} {depth : Nat}

theorem made (h : (node kind label operands).Formed tokens) :
    Made tokens kind label operands.length := by
  cases h <;> assumption

theorem operand (h : (node kind label operands).Formed tokens) :
    ∀ operand ∈ operands, operand.Formed tokens := by
  cases h <;> simp_all

/-- No node of a term is less deep than the outermost one. -/
theorem le_depth (h : term.Formed tokens) : ∀ entry ∈ term.entries depth, depth ≤ entry.depth := by
  induction h generalizing depth with
  | atom _ => simp [entries]
  | unary _ _ ih =>
      simp only [entries, entriesAll, List.forall_mem_append, List.forall_mem_cons]
      exact ⟨fun entry hmem => Nat.le_of_succ_le (ih entry hmem), Nat.le_refl _, by simp⟩
  | infixed _ _ _ ihleft ihright =>
      simp only [entries, entriesAll, List.forall_mem_append, List.forall_mem_cons]
      exact ⟨fun entry hmem => Nat.le_of_succ_le (ihleft entry hmem), Nat.le_refl _,
        fun entry hmem => Nat.le_of_succ_le (ihright entry hmem), by simp⟩

/-- The nodes of operands are deeper than the node that has them. -/
theorem not_mem_operands {terms : List Term} (h : ∀ operand ∈ terms, operand.Formed tokens)
    (kind : Kind) (label : String) : ⟨depth, kind, label⟩ ∉ entriesAll (depth + 1) terms := by
  rw [entriesAll_eq_flatMap, List.mem_flatMap]
  rintro ⟨operand, hmem, hentry⟩
  exact Nat.not_succ_le_self depth ((h operand hmem).le_depth _ hentry)

/-- The outermost node can be told from the others by its depth. -/
theorem entries_node_inj (h : (node kind label operands).Formed tokens)
    (hentries : (node kind label operands).entries depth =
      (node kind' label' operands').entries depth) :
    entriesAll (depth + 1) (operands.take 1) = entriesAll (depth + 1) (operands'.take 1) ∧
      (kind = kind' ∧ label = label') ∧
        entriesAll (depth + 1) (operands.drop 1) = entriesAll (depth + 1) (operands'.drop 1) := by
  rw [entries_node, entries_node] at hentries
  have hfirst : ⟨depth, kind', label'⟩ ∉ entriesAll (depth + 1) (operands.take 1) :=
    not_mem_operands (fun operand hmem => h.operand operand (List.mem_of_mem_take hmem)) _ _
  have hrest : ⟨depth, kind', label'⟩ ∉ entriesAll (depth + 1) (operands.drop 1) :=
    not_mem_operands (fun operand hmem => h.operand operand (List.mem_of_mem_drop hmem)) _ _
  simpa using (List.append_cons_inj_of_notMem hfirst hrest).1 hentries

/-- A term is determined by its nodes in the order of the walk. -/
theorem entries_injective (h : term.Formed tokens) (h' : term'.Formed tokens')
    (hentries : term.entries depth = term'.entries depth) : term = term' := by
  induction h generalizing term' depth with
  | atom hmade =>
      rcases term' with ⟨kind', label', operands'⟩
      obtain ⟨-, ⟨rfl, rfl⟩, -⟩ := entries_node_inj (.atom hmade) hentries
      have hlength := Option.some.inj (hmade.arity?_eq.symm.trans h'.made.arity?_eq)
      rw [List.eq_nil_of_length_eq_zero hlength.symm]
  | unary hmade hoperand ih =>
      rcases term' with ⟨kind', label', operands'⟩
      obtain ⟨hfirst, ⟨rfl, rfl⟩, -⟩ := entries_node_inj (.unary hmade hoperand) hentries
      have hlength := Option.some.inj (hmade.arity?_eq.symm.trans h'.made.arity?_eq)
      obtain ⟨operand', rfl⟩ := List.length_eq_one_iff.1 hlength.symm
      simp only [List.take_succ_cons, List.take_nil, entriesAll, List.append_nil] at hfirst
      rw [ih (h'.operand operand' (by simp)) hfirst]
  | infixed hmade hleft hright ihleft ihright =>
      rcases term' with ⟨kind', label', operands'⟩
      obtain ⟨hfirst, ⟨rfl, rfl⟩, hrest⟩ :=
        entries_node_inj (.infixed hmade hleft hright) hentries
      have hlength := Option.some.inj (hmade.arity?_eq.symm.trans h'.made.arity?_eq)
      obtain ⟨left', right', rfl⟩ := List.length_eq_two.1 hlength.symm
      simp only [List.take_succ_cons, List.take_zero, List.drop_succ_cons, List.drop_zero,
        entriesAll, List.append_nil] at hfirst hrest
      rw [ihleft (h'.operand left' (by simp)) hfirst, ihright (h'.operand right' (by simp)) hrest]

end Term.Formed

end OperatorTerms
