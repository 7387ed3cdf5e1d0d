/-
Module: OperatorTerms.Proofs.WalkIteration
Layer: Proofs
Purpose: The walk over a tree as an iterator. A caller asks for one node after the other; each time
  the visits still to be made are worked off until a node comes out of them, and every operand that
  is named is looked up in the forest. In a forest in which operands are older than the nodes that
  hold them this never leads outside the forest and ends after at most two steps for each node that
  comes out, and the nodes that come out are those of the recursive order. In the tree of a parse
  they are all the nodes of the forest, and the leaves among them are what is left of the written
  term without its operators.
Imports: OperatorTerms.Proofs.TraversalOrder, OperatorTerms.Term.Yield
Main exports: Forest.advance?, Forest.exhaust?, Forest.advance?_eq, Forest.exhaust?_expand,
  Tree.Whole.mem_postOrder_iff, Tree.Whole.size_eq, leaves_of_parse, exhaust?_eq_order
-/
import OperatorTerms.Proofs.TraversalOrder
import OperatorTerms.Term.Yield

namespace OperatorTerms

namespace Forest

/-- One call of the iterator, which starts from the visits still to be made: the node that comes out,
    if there is another one, and the visits that are left. There is no result if a visit leads outside
    the forest, or if the call takes more steps than the given number. -/
def advance? (forest : Forest) : Nat → List Visit → Option (Option NodeId × List Visit)
  | 0, _ => none
  | _ + 1, [] => some (none, [])
  | _ + 1, .emit id :: pending => some (some id, pending)
  | steps + 1, .expand id :: pending => do
      let node ← forest.nodes[id]?
      match node.operands with
      | [] => some (some id, pending)
      | first :: rest =>
          forest.advance? steps (.expand first :: .emit id :: (rest.map .expand ++ pending))

/-- The nodes that come out of the iterator until there are no more. There is no result if it takes
    more calls than the given number, or more steps in one of them. -/
def exhaust? (forest : Forest) : Nat → List Visit → Option (List NodeId)
  | 0, _ => none
  | calls + 1, pending =>
      match forest.advance? (calls + 1) pending with
      | none => none
      | some (none, _) => some []
      | some (some id, left) => (forest.exhaust? calls left).map (id :: ·)

variable {forest : Forest} {id root : NodeId} {pending : List Visit} {steps : Nat}

/-! ### Exhausting the iterator -/

/-- The visit is within the forest if there is a node to be expanded. -/
def Visit.Within (forest : Forest) : Visit → Prop
  | expand id => id < forest.size
  | emit _ => True

/-- Looking up a node of the forest succeeds. -/
theorem getElem?_nodes (h : id < forest.size) : forest.nodes[id]? = some (forest.node id) := by
  have hnode : forest.nodes[id]? = some forest.nodes[id] := Array.getElem?_eq_getElem h
  rw [node, hnode]
  rfl

/-- Opening a node is one step. -/
theorem loadAll_opened {first : NodeId} {rest : List NodeId}
    (hoperands : forest.operandsOf id = first :: rest) (pending : List Visit) :
    Visit.loadAll forest (.expand first :: .emit id :: (rest.map .expand ++ pending)) + 1 =
      Visit.loadAll forest (.expand id :: pending) := by
  have hload := loadAll_expand forest rest pending
  simp only [Visit.loadAll, Visit.load, count_eq forest id, hoperands, List.map_cons, List.foldr_cons]
  omega

/-- The operands of a node of the forest are nodes of the forest. -/
theorem within_opened {first : NodeId} {rest : List NodeId}
    (hoperands : forest.operandsOf id = first :: rest)
    (hwithin : ∀ visit ∈ Visit.expand id :: pending, visit.Within forest) :
    ∀ visit ∈ Visit.expand first :: .emit id :: (rest.map .expand ++ pending),
      visit.Within forest := by
  obtain ⟨hid, hpending⟩ := List.forall_mem_cons.1 hwithin
  have hoperand : ∀ operand ∈ first :: rest, operand < forest.size := fun operand hmem =>
    Nat.lt_trans (lt_of_mem_operandsOf (hoperands ▸ hmem)) hid
  obtain ⟨hfirst, hrest⟩ := List.forall_mem_cons.1 hoperand
  refine List.forall_mem_cons.2 ⟨hfirst, List.forall_mem_cons.2 ⟨trivial, ?_⟩⟩
  exact List.forall_mem_append.2 ⟨List.forall_mem_map.2 hrest, hpending⟩

/-- One call brings out the next node of the walk, and leaves visits that make up its rest. -/
theorem advance?_eq (h : forest.Older) (hwithin : ∀ visit ∈ pending, visit.Within forest)
    (hsteps : Visit.loadAll forest pending < steps) :
    match forest.visit pending with
    | [] => forest.advance? steps pending = some (none, [])
    | id :: ids =>
        ∃ left, forest.advance? steps pending = some (some id, left) ∧ forest.visit left = ids ∧
          (∀ visit ∈ left, visit.Within forest) ∧
          Visit.loadAll forest left < Visit.loadAll forest pending := by
  obtain ⟨steps, rfl⟩ := Nat.exists_eq_add_one_of_ne_zero (Nat.ne_zero_of_lt hsteps)
  fun_induction visit forest pending generalizing steps with
  | case1 => rfl
  | case2 id pending ih =>
      refine ⟨pending, rfl, rfl, (List.forall_mem_cons.1 hwithin).2, ?_⟩
      simp [Visit.loadAll, Visit.load]
  | case3 id pending hoperands ih =>
      obtain ⟨hid, hpending⟩ := List.forall_mem_cons.1 hwithin
      refine ⟨pending, ?_, rfl, hpending, ?_⟩
      · rw [h.operandsOf_eq] at hoperands
        rw [advance?, getElem?_nodes hid, Option.bind_eq_bind, Option.bind_some, hoperands]
      · simp [Visit.loadAll, Visit.load, count_eq forest id, hoperands]
  | case4 id pending first rest hoperands ih =>
      have hload := loadAll_opened hoperands pending
      obtain ⟨steps, rfl⟩ := Nat.exists_eq_add_one_of_ne_zero (by omega : steps ≠ 0)
      have hnext := ih (within_opened hoperands hwithin) steps (by omega)
      have hopened : forest.advance? (steps + 2) (.expand id :: pending) =
          forest.advance? (steps + 1)
            (.expand first :: .emit id :: (rest.map .expand ++ pending)) := by
        rw [h.operandsOf_eq] at hoperands
        rw [advance?, getElem?_nodes (List.forall_mem_cons.1 hwithin).1, Option.bind_eq_bind,
          Option.bind_some, hoperands]
      rw [hopened]
      split at hnext
      · exact hnext
      · obtain ⟨left, hadvance, hleft, hwithin, hless⟩ := hnext
        exact ⟨left, hadvance, hleft, hwithin, by omega⟩

/-- As many calls as there are steps to be made are enough to bring out what the walk lists. -/
theorem exhaust?_eq_visit (h : forest.Older) {calls : Nat}
    (hwithin : ∀ visit ∈ pending, visit.Within forest)
    (hcalls : Visit.loadAll forest pending < calls) :
    forest.exhaust? calls pending = some (forest.visit pending) := by
  induction calls generalizing pending with
  | zero => contradiction
  | succ calls ih =>
      have hnext := advance?_eq h hwithin hcalls
      split at hnext
      · rename_i hvisit
        simp only [exhaust?, hnext, hvisit]
      · rename_i id ids hvisit
        obtain ⟨left, hadvance, hleft, hwithin, hless⟩ := hnext
        have hlater : forest.exhaust? calls left = some ids :=
          hleft ▸ ih hwithin (Nat.lt_of_lt_of_le hless (Nat.le_of_lt_succ hcalls))
        simp only [exhaust?, hadvance, hvisit, hlater, Option.map_some]

/-- Folding counts the nodes that the walk lists. -/
theorem length_order (forest : Forest) (id : NodeId) :
    (forest.order id).length = forest.count id := by
  have hall : ∀ ids : List NodeId, (ids.flatMap forest.order).length + 1 =
      (ids.map fun id => (forest.order id).length).foldr (· + ·) 1 := by
    intro ids
    induction ids with
    | nil => rfl
    | cons id ids ih =>
        rw [List.flatMap_cons, List.length_append, List.map_cons, List.foldr_cons, ← ih,
          Nat.add_assoc]
  induction id using Nat.strongRecOn with
  | ind id ih =>
      have hoperand : ∀ operand ∈ forest.operandsOf id,
          (forest.order operand).length = forest.count operand := fun operand hmem =>
        ih operand (lt_of_mem_operandsOf hmem)
      rw [Forest.order_eq, count_eq, ← List.map_congr_left hoperand, ← hall]
      cases forest.operandsOf id with
      | nil => rfl
      | cons first rest =>
          rw [List.length_append, List.length_cons, List.flatMap_cons, List.length_append,
            Nat.add_assoc]

/-- To bring out every node takes two steps for each: one to open it and one to emit it. -/
theorem exhaust?_expand (h : forest.Older) (hroot : root < forest.size) {calls : Nat}
    (hcalls : 2 * (forest.order root).length < calls) :
    forest.exhaust? calls [.expand root] = some (forest.order root) := by
  rw [length_order] at hcalls
  rw [← postOrder_eq_order]
  exact exhaust?_eq_visit h (List.forall_mem_singleton.2 hroot) hcalls

/-- The recursive order goes by all the operands that a node has. -/
theorem Older.order_eq (h : forest.Older) (id : NodeId) :
    forest.order id =
      match (forest.node id).operands with
      | [] => [id]
      | first :: rest => forest.order first ++ id :: rest.flatMap forest.order := by
  have horder := Forest.order_eq forest id
  rw [h.operandsOf_eq] at horder
  exact horder

/-! ### Forests with older operands -/

theorem Older.initial : Older {} := by
  intro holder operand hmem
  rw [operands_of_size_le (Nat.zero_le holder)] at hmem
  contradiction

/-- A node on top of nodes of the forest is newer than they are. -/
theorem Older.apply {kind : Kind} {label : String} {operands : List NodeId} (h : forest.Older)
    (hoperands : ∀ operand ∈ operands, operand < forest.size) :
    (forest.apply kind label operands).Older := by
  intro holder operand hmem
  rw [operands_apply] at hmem
  split at hmem
  · rename_i hholder
    exact hholder ▸ hoperands operand hmem
  · exact h holder operand hmem

/-! ### Every node of a finished tree -/

/-- A node that is reached from the root is in the order of the root. -/
theorem Older.mem_order_of_address {path : List Nat} (h : forest.Older)
    (haddress : forest.Address root id path) : id ∈ forest.order root := by
  induction haddress with
  | root => exact mem_order_iff.2 (.inl rfl)
  | @operand holder operand place path _ hplace ih =>
      have hoperand : operand ∈ forest.operandsOf holder :=
        h.operandsOf_eq holder ▸ List.mem_of_getElem? hplace
      have hmem := mem_order_iff.2 (.inr ⟨operand, hoperand, mem_order_iff.2 (.inl rfl)⟩)
      exact (order_isInfix ih).mem hmem

end Forest

namespace Tree

variable {tree : Tree} {id : NodeId}

/-- The walk comes to the nodes of the forest and to no others. -/
theorem Whole.mem_postOrder_iff (h : tree.Whole) :
    id ∈ tree.postOrder ↔ id < tree.forest.size := by
  refine ⟨h.lt_size_of_mem_postOrder, fun hid => ?_⟩
  rw [postOrder, Forest.postOrder_eq_order]
  obtain ⟨path, haddress⟩ := h.owned.exists_address hid
  exact Forest.Older.mem_order_of_address h.owned.older haddress

/-- The walk over the tree comes to each node of the forest once. -/
theorem Whole.perm_postOrder (h : tree.Whole) :
    tree.postOrder.Perm (List.range tree.forest.size) := by
  refine (List.perm_ext_iff_of_nodup h.nodup_postOrder List.nodup_range).2 fun id => ?_
  rw [h.mem_postOrder_iff, List.mem_range]

/-- There are as many nodes in the tree as in the forest. -/
theorem Whole.size_eq (h : tree.Whole) : tree.size = tree.forest.size := by
  rw [size, h.perm_postOrder.length_eq, List.length_range]

/-- To exhaust the iterator takes two steps for each node of the forest. -/
theorem Whole.exhaust?_expand (h : tree.Whole) {calls : Nat} (hcalls : 2 * tree.forest.size < calls) :
    tree.forest.exhaust? calls [.expand tree.root] = some tree.postOrder := by
  rw [← h.size_eq, size, postOrder, Forest.postOrder_eq_order] at hcalls
  rw [postOrder, Forest.postOrder_eq_order]
  exact Forest.exhaust?_expand h.owned.older h.root_lt hcalls

end Tree

/-! ### Leaves -/

theorem Kind.arity?_eq_zero_iff {kind : Kind} :
    kind.arity? = some 0 ↔ kind.isTermLike = true := by
  cases kind <;> decide

/-- The leaves of a finished tree are the nodes that stand for variables or for something that is
    missing. -/
theorem Tree.Whole.isLeaf_eq {tree : Tree} {id : NodeId} (h : tree.Whole)
    (hid : id < tree.forest.size) : (tree.node id).isLeaf = (tree.node id).kind.isTermLike := by
  have harity := h.arity id hid
  rw [Bool.eq_iff_iff, ← Kind.arity?_eq_zero_iff, harity, Node.isLeaf, List.isEmpty_iff]
  simp

/-- Operators do not stand for themselves. -/
theorem Kind.isTermLike_eq_false {kind : Kind} {operands : Nat}
    (h : kind.arity? = some (operands + 1)) : kind.isTermLike = false := by
  cases htermLike : kind.isTermLike with
  | false => rfl
  | true =>
      rw [Kind.arity?_eq_zero_iff.2 htermLike] at h
      exact absurd (Option.some.inj h) (Nat.succ_ne_zero operands).symm

/-- Written out, a term has its leaves in the order of the walk. -/
theorem Term.Formed.leaves_eq {tokens : List Token} {term : Term} {depth : Nat}
    (h : term.Formed tokens) :
    ((term.entries depth).filter (·.kind.isTermLike)).map Entry.label =
      (term.yield.filter (·.kind.isTermLike)).map Element.label := by
  induction h generalizing depth with
  | atom hmade =>
      have hkind := Kind.arity?_eq_zero_iff.1 hmade.arity?_eq
      simp [entries, yield, hkind]
  | unary hmade _ ih =>
      -- Wherever the operator is written, leaving it out leaves what its operand leaves.
      have hkind := Kind.isTermLike_eq_false hmade.arity?_eq
      simp only [entries, entriesAll, yield, yieldAll]
      split
      · simp [hkind, ih]
      · split <;> simp [hkind, ih]
  | infixed hmade _ _ ihleft ihright =>
      have hkind := Kind.isTermLike_eq_false hmade.arity?_eq
      have hinfix := Kind.arity?_eq_two_iff.1 hmade.arity?_eq
      simp [entries, entriesAll, yield, yieldAll, hkind, hinfix, ihleft, ihright]

theorem leaves_of_parse {tokens : List Token} {tree : Tree} (h : parse tokens = .ok tree) :
    tree.leaves = (tree.term.yield.filter (·.kind.isTermLike)).map Element.label := by
  have hwhole := whole_of_parse h
  have hleaf : ∀ id ∈ tree.postOrder,
      (tree.node id).isLeaf = (tree.forest.entry id).kind.isTermLike := fun id hmem =>
    hwhole.isLeaf_eq (hwhole.mem_postOrder_iff.1 hmem)
  have hleaves : tree.leaves =
      (tree.entries.filter (·.kind.isTermLike)).map Entry.label := by
    rw [Tree.leaves, Tree.entries, List.filter_map, List.filter_map, List.map_map, List.map_map]
    exact congrArg _ (List.filter_congr hleaf)
  rw [hleaves, hwhole.entries_eq]
  exact (formed_of_parse h).leaves_eq

/-- Exhausting the iterator gives the recursive order wherever operands are older than the nodes that
    hold them, and takes at most two steps for each node that comes out. In the tree of a parse
    operands are older, every node comes out once, and the leaves are the variables and the
    placeholders from left to right. -/
theorem exhaust?_eq_order :
    (∀ (forest : Forest) (root : NodeId), forest.Older → root < forest.size →
      (∀ calls, 2 * (forest.order root).length < calls →
        forest.exhaust? calls [.expand root] = some (forest.order root)) ∧
      ∀ id, forest.order id =
        match (forest.node id).operands with
        | [] => [id]
        | first :: rest => forest.order first ++ id :: rest.flatMap forest.order) ∧
    ∀ tokens tree, parse tokens = .ok tree →
      (tree.forest.Older ∧ tree.root < tree.forest.size) ∧
      (∀ calls, 2 * tree.forest.size < calls →
        tree.forest.exhaust? calls [.expand tree.root] = some tree.postOrder) ∧
      (tree.postOrder.Nodup ∧ ∀ id, id ∈ tree.postOrder ↔ id < tree.forest.size) ∧
      tree.size = tree.forest.size ∧
      tree.leaves = (tree.term.yield.filter (·.kind.isTermLike)).map Element.label := by
  constructor
  · intro forest root holder hroot
    exact ⟨fun _ => Forest.exhaust?_expand holder hroot, holder.order_eq⟩
  · intro tokens tree hparse
    have hwhole := whole_of_parse hparse
    exact ⟨⟨hwhole.owned.older, hwhole.root_lt⟩, fun _ => hwhole.exhaust?_expand,
      ⟨hwhole.nodup_postOrder, fun _ => hwhole.mem_postOrder_iff⟩, hwhole.size_eq,
      leaves_of_parse hparse⟩

/-- An assignment with an operator on its right: the left side comes out first, and the other operator
    between its operands. So it is in a forest put together by hand and in that of a parse. -/
theorem exhaust?_nested_operators :
    Forest.exhaust? (((((({} : Forest).leaf .var "v1").leaf .var "v3").leaf .var "v5").apply
      .dyad "d4" [1, 2]).apply .assign "a2" [0, 3]) 11 [.expand 4] = some [0, 4, 1, 3, 2] ∧
    ∃ tree, parse [⟨.var, "v1", ""⟩, ⟨.assign, "a2", ""⟩, ⟨.var, "v3", ""⟩, ⟨.dyad, "d4", ""⟩,
        ⟨.var, "v5", ""⟩] = .ok tree ∧
      tree.forest.exhaust? 11 [.expand tree.root] = some tree.postOrder ∧
      tree.leaves = ["v1", "v3", "v5"] := by
  obtain ⟨hforests, htrees⟩ := exhaust?_eq_order
  constructor
  · have holder : Forest.Older (((((({} : Forest).leaf .var "v1").leaf .var "v3").leaf .var
        "v5").apply .dyad "d4" [1, 2]).apply .assign "a2" [0, 3]) := by
      refine .apply (.apply (.apply (.apply (.apply Forest.Older.initial ?_) ?_) ?_) ?_) ?_
      all_goals decide
    rw [(hforests _ 4 holder (by decide)).1 11 (by decide +kernel)]
    decide +kernel
  · have hparse : parse [⟨.var, "v1", ""⟩, ⟨.assign, "a2", ""⟩, ⟨.var, "v3", ""⟩,
        ⟨.dyad, "d4", ""⟩, ⟨.var, "v5", ""⟩] =
        .ok ⟨⟨#[⟨.var, "v1", [], some 4⟩, ⟨.var, "v3", [], some 3⟩, ⟨.var, "v5", [], some 3⟩,
          ⟨.dyad, "d4", [1, 2], some 4⟩, ⟨.assign, "a2", [0, 3], none⟩]⟩, 4⟩ := by
      decide +kernel
    obtain ⟨-, hexhaust, -⟩ := htrees _ _ hparse
    exact ⟨_, hparse, hexhaust 11 (by decide +kernel), by decide +kernel⟩

end OperatorTerms
