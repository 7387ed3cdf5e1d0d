/-
Module: OperatorTerms.Proofs.TreeAccess
Layer: Proofs
Purpose: What is asked of a finished tree, with every access checked. The nodes are stored by number
  and the rows of a drawing by depth, so to go down or up in a tree and to write a label are lookups,
  and padding a row is a subtraction. Here a lookup outside the nodes or the rows and a difference
  below zero have no result, and neither has a walk that takes more steps than a tree of that many
  nodes gives it. In the tree of a parse all of them succeed: operands and parents are stored, depths
  do not exceed the number of rows, and no row is wider than the widest.
Imports: OperatorTerms.Proofs.DrawingOrder, OperatorTerms.Proofs.WalkIteration
Main exports: difference?, Forest.climb?, Forest.depth?, Forest.display?, Tree.postOrder?,
  Tree.size?, Tree.maxDepth?, Tree.leaves?, Layout.align?, Layout.place?, Tree.render?,
  Forest.Owned.depth?_eq, Forest.display?_eq, Layout.rows?_eq, Tree.Whole.render?_eq
-/
import OperatorTerms.Proofs.DrawingOrder
import OperatorTerms.Proofs.WalkIteration

namespace OperatorTerms

/-- The difference of two numbers, unless it is below zero. -/
def difference? (whole part : Nat) : Option Nat :=
  if part ≤ whole then some (whole - part) else none

namespace Forest

/-- Counts the nodes on the way up, on from the given number. There is no result if a node is not
    stored, or if the way is longer than the first number. -/
def climb? (forest : Forest) : Nat → Nat → Option NodeId → Option Nat
  | _, count, none => some count
  | 0, _, some _ => none
  | steps + 1, count, some id => do
      let node ← forest.nodes[id]?
      forest.climb? steps (count + 1) node.parent

/-- One for the node, and one for each step up. No way up has more steps than there are nodes. -/
def depth? (forest : Forest) (id : NodeId) : Option Nat := do
  let node ← forest.nodes[id]?
  forest.climb? forest.size 1 node.parent

/-- The compact form of a term whose operands are nested no deeper than the given number. -/
def displayWithin? (forest : Forest) : Nat → NodeId → Option String
  | 0, _ => none
  | nesting + 1, id => do
      let node ← forest.nodes[id]?
      match node.operands with
      | [] => some node.label
      | first :: rest =>
          let shown ← forest.displayWithin? nesting first
          let others ← rest.mapM (forest.displayWithin? nesting)
          some (node.label ++ "(" ++ shown ++ String.join (others.map (", " ++ ·)) ++ ")")

/-- The compact form of the term that a node stands for. No term is nested deeper than there are
    nodes. -/
def display? (forest : Forest) (id : NodeId) : Option String :=
  forest.displayWithin? forest.size id

end Forest

namespace Tree

def display? (tree : Tree) : Option String := tree.forest.display? tree.root

/-- The nodes in the order of the walk, which opens every node once and emits it once. -/
def postOrder? (tree : Tree) : Option (List NodeId) :=
  tree.forest.exhaust? (2 * tree.forest.size + 1) [.expand tree.root]

def size? (tree : Tree) : Option Nat := do
  let ids ← tree.postOrder?
  some ids.length

def maxDepth? (tree : Tree) : Option Nat := do
  let ids ← tree.postOrder?
  let depths ← ids.mapM tree.forest.depth?
  some (depths.max?.getD 1)

def leaves? (tree : Tree) : Option (List String) := do
  let ids ← tree.postOrder?
  let nodes ← ids.mapM (tree.forest.nodes[·]?)
  some ((nodes.filter Node.isLeaf).map Node.label)

end Tree

namespace Layout

/-- Pads every row to the width of the widest. -/
def align? (rows : List String) : Option (List String) :=
  rows.mapM fun row => do
    let padding ← difference? (width rows) row.utf8ByteSize
    some (row ++ Text.spaces padding)

def alignIf? (condition : Bool) (rows : List String) : Option (List String) :=
  if condition then align? rows else some rows

/-- Writes the label of a node at the end of the row for its depth. -/
def place? (tree : Tree) (rows : List String) (id : NodeId) : Option (List String) := do
  let node ← tree.forest.nodes[id]?
  let rows ← alignIf? node.kind.isInfix rows
  let depth ← tree.forest.depth? id
  let row ← rows[depth]?
  alignIf? (!keepsColumn node.kind) (rows.set depth (row ++ " " ++ node.label))

def rows? (tree : Tree) : Option (List String) := do
  let deepest ← tree.maxDepth?
  let ids ← tree.postOrder?
  ids.foldlM (place? tree) (List.replicate (deepest + 1) "")

end Layout

def Tree.render? (tree : Tree) (title : List String) : Option String := do
  let rows ← Layout.rows? tree
  let lines := (rows.map Text.trimEnd).dropWhile String.isEmpty
  some (String.join ((Layout.heading title ++ lines).map (· ++ "\n")))

theorem difference?_of_le {whole part : Nat} (h : part ≤ whole) :
    difference? whole part = some (whole - part) :=
  if_pos h

/-- Where every element has a value, so has the list. -/
theorem mapM_eq_some_map {α β : Type} {list : List α} {value? : α → Option β} {value : α → β}
    (h : ∀ element ∈ list, value? element = some (value element)) :
    list.mapM value? = some (list.map value) := by
  induction list with
  | nil => rfl
  | cons first rest ih =>
      obtain ⟨hfirst, hrest⟩ := List.forall_mem_cons.1 h
      rw [List.mapM_cons, hfirst, ih hrest]
      rfl

variable {forest : Forest} {tree : Tree} {id : NodeId} {roots : List NodeId}

/-! ### Up and down -/

namespace Forest

theorem depth_eq_one (hparent : (forest.node id).parent = none) : forest.depth id = 1 := by
  rw [depth, parentOf?, hparent]
  rfl

/-- Going up from a node that is stored leads to stored nodes only, and to a newer one each time. -/
theorem Owned.climb?_eq {steps : Nat} (h : forest.Owned roots) (count : Nat)
    (hsteps : forest.size ≤ id + (steps + 1)) :
    forest.climb? steps (count + 1) (forest.node id).parent = some (count + forest.depth id) := by
  induction steps generalizing id count with
  | zero =>
      cases hparent : (forest.node id).parent with
      | none => rw [climb?, depth_eq_one hparent]
      | some holder =>
          have hmem := (h.parent_iff id holder).1 hparent
          have hlt := Nat.succ_le_of_lt (h.older holder id hmem)
          have holder_lt := Nat.lt_of_le_of_lt hlt (lt_size_of_mem_operands hmem)
          exact absurd hsteps (Nat.not_le_of_lt holder_lt)
  | succ steps ih =>
      cases hparent : (forest.node id).parent with
      | none => rw [climb?, depth_eq_one hparent]
      | some holder =>
          have hmem := (h.parent_iff id holder).1 hparent
          have holder_lt := lt_size_of_mem_operands hmem
          have hlt := Nat.succ_le_of_lt (h.older holder id hmem)
          rw [climb?, getElem?_nodes holder_lt, Option.bind_eq_bind, Option.bind_some,
            ih (count + 1) (by omega), h.depth_operand hmem]
          congr 1
          omega

theorem Owned.depth?_eq (h : forest.Owned roots) (hid : id < forest.size) :
    forest.depth? id = some (forest.depth id) := by
  rw [depth?, getElem?_nodes hid, Option.bind_eq_bind, Option.bind_some,
    h.climb?_eq 0 (by omega), Nat.zero_add]

/-- The operands after the first are shown one after the other. -/
theorem displayRest_eq (terms : List Term) :
    Term.displayRest terms = String.join ((terms.map Term.display).map (", " ++ ·)) := by
  induction terms with
  | nil => rfl
  | cons first rest ih =>
      rw [Term.displayRest, ih, List.map_cons, List.map_cons, String.join_cons]

/-- A term that is stored can be shown, since its operands are stored and older than it. -/
theorem displayWithin?_eq {nesting : Nat} (h : forest.Older) (hid : id < forest.size)
    (hnesting : id < nesting) :
    forest.displayWithin? nesting id = some (forest.term id).display := by
  induction nesting generalizing id with
  | zero => contradiction
  | succ nesting ih =>
      have hoperand : ∀ operand ∈ (forest.node id).operands,
          forest.displayWithin? nesting operand = some (forest.term operand).display :=
        fun operand hmem =>
          have hlt := h id operand hmem
          ih (Nat.lt_trans hlt hid) (Nat.lt_of_lt_of_le hlt (Nat.le_of_lt_succ hnesting))
      rw [displayWithin?, getElem?_nodes hid, Option.bind_eq_bind, Option.bind_some, term_eq,
        h.operandsOf_eq]
      cases hoperands : (forest.node id).operands with
      | nil => rfl
      | cons first rest =>
          rw [hoperands] at hoperand
          obtain ⟨hfirst, hrest⟩ := List.forall_mem_cons.1 hoperand
          simp only [hfirst, mapM_eq_some_map hrest, Option.bind_eq_bind, Option.bind_some]
          have hothers : (rest.map forest.term).map Term.display =
              rest.map fun operand => (forest.term operand).display := List.map_map
          rw [List.map_cons, Term.display, displayRest_eq, hothers]

theorem display?_eq (h : forest.Older) (hid : id < forest.size) :
    forest.display? id = some (forest.term id).display :=
  displayWithin?_eq h hid hid

end Forest

/-! ### Walks -/

namespace Tree.Whole

theorem display?_eq (h : tree.Whole) : tree.display? = some tree.display :=
  Forest.display?_eq h.owned.older h.root_lt

theorem postOrder?_eq (h : tree.Whole) : tree.postOrder? = some tree.postOrder :=
  h.exhaust?_expand (Nat.lt_succ_self _)

theorem size?_eq (h : tree.Whole) : tree.size? = some tree.size := by
  rw [size?, h.postOrder?_eq]
  rfl

theorem depth?_eq (h : tree.Whole) (hid : id ∈ tree.postOrder) :
    tree.forest.depth? id = some (tree.depth id) :=
  h.owned.depth?_eq (h.mem_postOrder_iff.1 hid)

theorem maxDepth?_eq (h : tree.Whole) : tree.maxDepth? = some tree.maxDepth := by
  rw [maxDepth?, h.postOrder?_eq, Option.bind_eq_bind, Option.bind_some,
    mapM_eq_some_map fun _ => h.depth?_eq]
  rfl

theorem leaves?_eq (h : tree.Whole) : tree.leaves? = some tree.leaves := by
  have hnodes : ∀ id ∈ tree.postOrder, tree.forest.nodes[id]? = some (tree.node id) :=
    fun id hid => Forest.getElem?_nodes (h.mem_postOrder_iff.1 hid)
  rw [leaves?, h.postOrder?_eq, Option.bind_eq_bind, Option.bind_some, mapM_eq_some_map hnodes]
  rfl

end Tree.Whole

/-! ### Drawings -/

namespace Layout

/-- No row is wider than the widest, so none is padded by less than nothing. -/
theorem align?_eq (rows : List String) : align? rows = some (align rows) :=
  mapM_eq_some_map fun row hmem => by
    rw [difference?_of_le (le_width hmem)]
    rfl

theorem alignIf?_eq (condition : Bool) (rows : List String) :
    alignIf? condition rows = some (if condition then align rows else rows) := by
  rw [alignIf?, align?_eq]
  split <;> rfl

@[simp]
theorem length_place (tree : Tree) (rows : List String) (id : NodeId) :
    (place tree rows id).length = rows.length := by
  simp only [place]
  split <;> split <;> simp

/-- A node that is stored is drawn if there is a row for its depth. -/
theorem place?_eq {rows : List String} (h : tree.Whole) (hid : id ∈ tree.postOrder)
    (hrows : tree.depth id < rows.length) : place? tree rows id = some (place tree rows id) := by
  have hnode : tree.forest.nodes[id]? = some (tree.node id) :=
    Forest.getElem?_nodes (h.mem_postOrder_iff.1 hid)
  have hlength : (if (tree.node id).kind.isInfix then align rows else rows).length =
      rows.length := by
    split <;> simp
  simp only [place?, hnode, alignIf?_eq, h.depth?_eq hid, Option.bind_eq_bind, Option.bind_some]
  rw [place]
  generalize (if (tree.node id).kind.isInfix then align rows else rows) = prepared at hlength ⊢
  have hrow := List.getElem?_eq_getElem (hlength.symm ▸ hrows : tree.depth id < prepared.length)
  rw [hrow, Option.bind_some, List.modify_eq_set_getElem?, hrow]
  cases keepsColumn (tree.node id).kind <;> rfl

theorem foldlM_place? {ids : List NodeId} {rows : List String} (h : tree.Whole)
    (hids : ∀ id ∈ ids, id ∈ tree.postOrder ∧ tree.depth id < rows.length) :
    ids.foldlM (place? tree) rows = some (ids.foldl (place tree) rows) := by
  induction ids generalizing rows with
  | nil => rfl
  | cons id ids ih =>
      obtain ⟨⟨hid, hrow⟩, hids⟩ := List.forall_mem_cons.1 hids
      rw [List.foldlM_cons, place?_eq h hid hrow]
      exact ih (by simpa using hids)

/-- There is a row for every depth, since depths are at most the greatest one. -/
theorem rows?_eq (h : tree.Whole) : rows? tree = some (rows tree) := by
  rw [rows?, h.maxDepth?_eq, h.postOrder?_eq]
  refine foldlM_place? h fun id hid => ⟨hid, ?_⟩
  have hdepth : tree.depth id ≤ tree.maxDepth :=
    List.le_max?_getD_of_mem (List.mem_map_of_mem hid)
  rw [List.length_replicate]
  exact Nat.lt_succ_of_le hdepth

end Layout

theorem Tree.Whole.render?_eq (h : tree.Whole) (title : List String) :
    tree.render? title = some (tree.render title) := by
  rw [render?, Layout.rows?_eq h]
  rfl

end OperatorTerms
