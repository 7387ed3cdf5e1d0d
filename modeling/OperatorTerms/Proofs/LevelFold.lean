/-
Module: OperatorTerms.Proofs.LevelFold
Layer: Proofs
Purpose: Reduction folds the topmost level from the right and stays within it. Read from the bottom
  up, a level that an operand ends is a chain: operands with the infix operators after them, prefix
  operators, and the last operand. The chain gives way to one node, built on the nodes of the
  operands themselves, which stay as they were but for their parents. Below the chain there is an
  opening parenthesis or nothing, and whatever is there is left alone. Since the rules leave no
  choice, this is what becomes of the level in whatever order they are tried.
Imports: OperatorTerms.Proofs.RuleOrder, OperatorTerms.Proofs.StackLayers
Main exports: Forest.Applies, Forest.Nests, Chain, Chain.items, Chain.value, Chain.FoldedIn,
  State.reduceAll_chain, reduction_settles_and_folds
-/
import OperatorTerms.Proofs.RuleOrder
import OperatorTerms.Proofs.StackLayers

namespace OperatorTerms

/-! ### Nodes built on nodes -/

namespace Forest

/-- The node is the operator's, over the given operands. -/
structure Applies (forest : Forest) (operator : Token) (operands : List NodeId) (id : NodeId) :
    Prop where
  lt_size : id < forest.size
  kind_eq : (forest.node id).kind = operator.kind
  label_eq : (forest.node id).label = operator.label
  operands_eq : (forest.node id).operands = operands

/-- The node is built on the last operand and on those of the links: the prefix operators are
    applied to the last operand, the last of them first, and each link takes what follows it as the
    right operand of its operator. -/
inductive Nests (forest : Forest) (last : NodeId) :
    List (NodeId × Placed) → List Placed → NodeId → Prop where
  | last : Nests forest last [] [] last
  | wrap {operator : Placed} {prefixes : List Placed} {inner id : NodeId} :
      forest.Applies operator.token [inner] id → Nests forest last [] prefixes inner →
        Nests forest last [] (operator :: prefixes) id
  | join {link : NodeId × Placed} {links : List (NodeId × Placed)} {prefixes : List Placed}
      {right id : NodeId} :
      forest.Applies link.2.token [link.1, right] id → Nests forest last links prefixes right →
        Nests forest last (link :: links) prefixes id

variable {old new : Forest} {operator : Token} {operands : List NodeId} {id last : NodeId}
  {links : List (NodeId × Placed)} {prefixes : List Placed}

theorem applies_apply (forest : Forest) (operator : Token) (operands : List NodeId) :
    (forest.apply operator.kind operator.label operands).Applies operator operands forest.size := by
  have hnode := node_apply_size forest operator.kind operator.label operands
  refine ⟨?_, ?_, ?_, ?_⟩
  · rw [size_apply]
    exact Nat.lt_succ_self _
  all_goals rw [hnode]

theorem Applies.mono (h : old.Applies operator operands id) (hext : old.Extends new) :
    new.Applies operator operands id where
  lt_size := Nat.lt_of_lt_of_le h.lt_size hext.size_le
  kind_eq := (hext.kind_eq id h.lt_size).trans h.kind_eq
  label_eq := (hext.label_eq id h.lt_size).trans h.label_eq
  operands_eq := (hext.operands_eq id h.lt_size).trans h.operands_eq

theorem Nests.mono (h : old.Nests last links prefixes id) (hext : old.Extends new) :
    new.Nests last links prefixes id := by
  induction h with
  | last => exact .last
  | wrap happlies _ ih => exact .wrap (happlies.mono hext) ih
  | join happlies _ ih => exact .join (happlies.mono hext) ih

end Forest

/-! ### Chains -/

/-- A level that an operand ends, in the order of reading. Its operands are nodes of the given
    forest. -/
structure Chain (forest : Forest) where
  /-- Operands with the infix operators after them. -/
  links : List (NodeId × Placed)
  /-- The prefix operators before the last operand. -/
  prefixes : List Placed
  last : NodeId
  joined : ∀ link ∈ links, link.2.token.kind.isInfix = true
  prefixed : ∀ operator ∈ prefixes, operator.token.kind = .prefixOp
  links_stored : ∀ link ∈ links, link.1 < forest.size
  last_stored : last < forest.size

namespace Chain

variable {forest : Forest}

/-- The operands, from left to right. -/
def operands (chain : Chain forest) : List NodeId := chain.links.map Prod.fst ++ [chain.last]

/-- The items of the chain, bottom first. -/
def items (chain : Chain forest) : List Item :=
  chain.links.flatMap (fun link => [.term link.1, .token link.2]) ++
    chain.prefixes.map .token ++ [.term chain.last]

/-- The term of the chain. Each operator has all that follows it as its last operand. -/
def value (chain : Chain forest) : Term :=
  chain.links.foldr (fun link right => Reading.node link.2.token [forest.term link.1, right])
    (chain.prefixes.foldr (fun operator operand => Reading.node operator.token [operand])
      (forest.term chain.last))

/-- After the chain has been folded its term is that of the root, which is built on the operands.
    Nodes that are no operands are as they were, and operands are but for their parents. -/
structure FoldedIn (chain : Chain forest) (after : Forest) (root : NodeId) : Prop where
  nests : after.Nests chain.last chain.links chain.prefixes root
  term_eq : after.term root = chain.value
  extends_before : forest.Extends after
  operand_eq : ∀ operand ∈ chain.operands, after.term operand = forest.term operand
  other_eq : ∀ id < forest.size, id ∉ chain.operands → after.node id = forest.node id

/-- The last operand, before anything is built on it. -/
def start (chain : Chain forest) (log : List Record) : Draft := ⟨chain.last, forest, log⟩

/-- The rest of the chain, as a segment that waits for its last operand. -/
def segment (chain : Chain forest) : Segment where
  chain := chain.links.reverse
  prefixes := chain.prefixes.reverse

theorem sound_segment (chain : Chain forest) : chain.segment.Sound :=
  ⟨fun operator hmem => chain.prefixed operator (List.mem_reverse.1 hmem),
    fun link hmem => chain.joined link (List.mem_reverse.1 hmem)⟩

theorem within_segment (chain : Chain forest) : chain.segment.Within forest.size :=
  ⟨fun link hmem => chain.links_stored link (List.mem_reverse.1 hmem), by simp [segment]⟩

theorem reverse_items (chain : Chain forest) :
    chain.items.reverse = .term chain.last :: chain.segment.waiting := by
  simp [items, segment, Segment.waiting, Segment.chainItems, List.reverse_flatMap,
    Function.comp_def]

theorem value_segment (chain : Chain forest) :
    (chain.segment.reading forest).closeChain
      ((chain.segment.reading forest).applyPrefixes (forest.term chain.last)) = chain.value := by
  simp [segment, Segment.reading, Segment.terms, Reading.closeChain, Reading.applyPrefixes, value,
    List.foldl_reverse, List.foldr_map]

theorem mem_operands_of_link {chain : Chain forest} {link : NodeId × Placed}
    (h : link ∈ chain.links) : link.1 ∈ chain.operands :=
  List.mem_append_left _ (List.mem_map_of_mem h)

theorem last_mem_operands (chain : Chain forest) : chain.last ∈ chain.operands :=
  List.mem_append_right _ List.mem_cons_self

theorem lt_size_of_mem_operands {chain : Chain forest} {operand : NodeId}
    (h : operand ∈ chain.operands) : operand < forest.size := by
  rcases List.mem_append.1 h with hlink | hlast
  · obtain ⟨link, hmem, rfl⟩ := List.mem_map.1 hlink
    exact chain.links_stored link hmem
  · exact List.mem_singleton.1 hlast ▸ chain.last_stored

end Chain

/-! ### Folding -/

/-- The draft has been made of the last operand of the chain, the given prefix operators and the
    given links, and so far only operands of the chain have got a parent. -/
structure Draft.Folds {forest : Forest} (chain : Chain forest) (links : List (NodeId × Placed))
    (prefixes : List Placed) (draft : Draft) : Prop where
  nests : draft.forest.Nests chain.last links prefixes draft.root
  extends_before : forest.Extends draft.forest
  root_mem : draft.root < forest.size → draft.root ∈ chain.operands
  other_eq : ∀ id < forest.size, id ∉ chain.operands → draft.forest.node id = forest.node id

namespace Draft.Folds

variable {forest : Forest} {chain : Chain forest} {links links' : List (NodeId × Placed)}
  {prefixes prefixes' : List Placed} {draft : Draft}

theorem start (chain : Chain forest) (log : List Record) :
    (chain.start log).Folds chain [] [] :=
  ⟨.last, .refl forest, fun _ => chain.last_mem_operands, fun _ _ _ => rfl⟩

/-- A node built on the draft and on operands of the chain is a draft that may take its place. -/
theorem apply {operator : Token} {operands : List NodeId} {log : List Record}
    (h : draft.Folds chain links prefixes)
    (hoperands : ∀ operand ∈ operands, operand = draft.root ∨ operand ∈ chain.operands)
    (hnests : (draft.forest.apply operator.kind operator.label operands).Nests chain.last links'
      prefixes' draft.forest.size) :
    Folds chain links' prefixes'
      ⟨draft.forest.size, draft.forest.apply operator.kind operator.label operands, log⟩ := by
  refine ⟨hnests, h.extends_before.trans (draft.forest.extends_apply _ _ _), ?_, ?_⟩
  · intro hlt
    exact absurd h.extends_before.size_le (Nat.not_le.2 hlt)
  · intro id hid hmem
    have hnot : id ∉ operands := fun hoperand => by
      rcases hoperands id hoperand with rfl | hheld
      · exact hmem (h.root_mem hid)
      · exact hmem hheld
    have hstored : id < draft.forest.size := Nat.lt_of_lt_of_le hid h.extends_before.size_le
    exact (Forest.node_apply_of_not_mem hstored hnot).trans (h.other_eq id hid hmem)

theorem wrap (h : draft.Folds chain [] prefixes) (operator : Placed) :
    (draft.wrap operator).Folds chain [] (operator :: prefixes) :=
  h.apply (by simp)
    (.wrap (draft.forest.applies_apply operator.token [draft.root])
      (h.nests.mono (draft.forest.extends_apply _ _ _)))

theorem join (h : draft.Folds chain links prefixes) {link : NodeId × Placed}
    (hlink : link ∈ chain.links) : (draft.join link).Folds chain (link :: links) prefixes :=
  h.apply (by simp [Chain.mem_operands_of_link hlink])
    (.join (draft.forest.applies_apply link.2.token [link.1, draft.root])
      (h.nests.mono (draft.forest.extends_apply _ _ _)))

theorem wrapAll (h : draft.Folds chain [] []) (prefixes : List Placed) :
    (prefixes.foldr (fun operator draft => draft.wrap operator) draft).Folds chain [] prefixes := by
  induction prefixes with
  | nil => exact h
  | cons operator prefixes ih => exact ih.wrap operator

theorem joinAll (h : draft.Folds chain [] prefixes) (hlinks : ∀ link ∈ links, link ∈ chain.links) :
    (links.foldr (fun link draft => draft.join link) draft).Folds chain links prefixes := by
  induction links with
  | nil => exact h
  | cons link links ih =>
      obtain ⟨hlink, hlinks⟩ := List.forall_mem_cons.1 hlinks
      exact (ih hlinks).join hlink

end Draft.Folds

namespace Chain

variable {forest : Forest}

/-- Completing the segment of a chain folds the chain. -/
theorem foldedIn_complete (chain : Chain forest) (log : List Record) :
    chain.FoldedIn (chain.segment.complete (chain.start log)).forest
      (chain.segment.complete (chain.start log)).root := by
  have hfolds : (chain.segment.complete (chain.start log)).Folds chain chain.links
      chain.prefixes := by
    rw [Segment.complete, segment, List.foldl_reverse, List.foldl_reverse]
    exact ((Draft.Folds.start chain log).wrapAll chain.prefixes).joinAll fun _ => id
  have hstart : (chain.start log).Builds forest (forest.term chain.last) :=
    ⟨.refl forest, chain.last_stored, rfl⟩
  have hbuilds := Segment.builds_complete hstart chain.within_segment
  refine ⟨hfolds.nests, ?_, hfolds.extends_before, ?_, hfolds.other_eq⟩
  · exact hbuilds.term_eq.trans chain.value_segment
  · intro operand hmem
    exact hfolds.extends_before.term_eq (lt_size_of_mem_operands hmem)

end Chain

/-- Reduction puts one term in place of the chain on top, and leaves alone what is below. -/
theorem State.reduceAll_chain {state : State} {chain : Chain state.forest} {below : List Item}
    (hstack : state.stack = chain.items.reverse ++ below) (hbelow : Bounded below) :
    ∃ root forest log,
      state.reduceAll = ⟨.term root :: below, forest, log⟩ ∧ chain.FoldedIn forest root := by
  have hstate : state = (chain.start state.log).atop (chain.segment.waiting ++ below) := by
    rw [Draft.atop, ← List.cons_append, Chain.start, ← chain.reverse_items, ← hstack]
  have hreduce : state.reduceAll =
      (chain.segment.complete (chain.start state.log)).atop below :=
    (congrArg reduceAll hstate).trans (reduceAll_segment chain.sound_segment hbelow)
  exact ⟨_, _, _, hreduce, chain.foldedIn_complete state.log⟩

/-- Reduction has no choice, comes to an end, and folds the topmost level. On any stack one rule at
    most fits, and what it leaves is shorter. So no more rules can be applied in turn than there are
    items, and there is one way to do this until none fits, which leads to the state that reduction
    finds; the rules may be tried in any order. A chain above an opening parenthesis or above
    nothing gives way to the term in which each operator takes all that follows it, while the items
    below stay, and the operands do too, but for their parents. -/
theorem reduction_settles_and_folds (state : State) :
    (∀ (rule other : Rule) (reduced reduced' : State), rule.reduct? state = some reduced →
      other.reduct? state = some reduced' → rule = other) ∧
    (∀ (rule : Rule) (reduced : State), rule.reduct? state = some reduced →
      reduced.stack.length < state.stack.length) ∧
    (∀ fired result, Fires fired state result →
      fired.length + result.stack.length ≤ state.stack.length) ∧
    (∃ fired, ∀ fired' result, Fires fired' state result ∧ result.Settled ↔
      fired' = fired ∧ result = state.reduceAll) ∧
    (∀ rules : List Rule, (∀ rule, rule ∈ rules) →
      state.reduceAllWith rules = state.reduceAll) ∧
    ∀ (chain : Chain state.forest) (below : List Item),
      state.stack = chain.items.reverse ++ below → State.Bounded below →
        ∃ root forest log,
          state.reduceAll = ⟨.term root :: below, forest, log⟩ ∧ chain.FoldedIn forest root := by
  refine ⟨fun _ _ _ _ => Rule.eq_of_reduct?, fun _ _ => Rule.length_lt_of_reduct?,
    fun _ _ => Fires.length_add_length_le, state.exists_fires_iff, ?_, ?_⟩
  · intro rules hall
    exact State.reduceAllWith_eq_reduceAll hall state
  · intro chain below hstack hbelow
    exact State.reduceAll_chain hstack hbelow

/-- Inside a group that is still open two infix operators group to the right, the second over an
    operand behind a prefix operator. The operator in front of the group has to wait. -/
theorem reduction_folds_inside_open_group :
    ∃ (state result : State) (chain : Chain state.forest) (below : List Item),
      below = [.token ⟨3, ⟨.opening, "(", ""⟩⟩, .token ⟨2, ⟨.dyad, "*", ""⟩⟩, .term 0] ∧
      state.stack = chain.items.reverse ++ below ∧
      chain.value.display = "+(y, ^(z, -(w)))" ∧
      (∃ reduced, Rule.unaryOperator.reduct? state = some reduced ∧
        reduced.stack.length < state.stack.length ∧
        ∀ (other : Rule) (reduced' : State), other.reduct? state = some reduced' →
          Rule.unaryOperator = other) ∧
      Fires [.unaryOperator, .infixOperator, .infixOperator] state result ∧
      3 + result.stack.length ≤ state.stack.length ∧ result = state.reduceAll ∧
      state.reduceAllWith Rule.all.reverse = state.reduceAll ∧
      ∃ root forest log,
        state.reduceAll = ⟨.term root :: below, forest, log⟩ ∧ chain.FoldedIn forest root := by
  refine ⟨⟨[.term 3, .token ⟨8, ⟨.prefixOp, "-", ""⟩⟩, .token ⟨7, ⟨.dyad, "^", ""⟩⟩, .term 2,
      .token ⟨5, ⟨.dyad, "+", ""⟩⟩, .term 1, .token ⟨3, ⟨.opening, "(", ""⟩⟩,
      .token ⟨2, ⟨.dyad, "*", ""⟩⟩, .term 0],
      ⟨#[⟨.var, "x", [], none⟩, ⟨.var, "y", [], none⟩, ⟨.var, "z", [], none⟩,
        ⟨.var, "w", [], none⟩]⟩, []⟩, _,
    ⟨[(1, ⟨5, ⟨.dyad, "+", ""⟩⟩), (2, ⟨7, ⟨.dyad, "^", ""⟩⟩)], [⟨8, ⟨.prefixOp, "-", ""⟩⟩], 3,
      by decide, by decide, by decide, by decide⟩,
    _, rfl, rfl, by decide +kernel, ⟨_, rfl, ?_, ?_⟩, .next rfl (.next rfl (.next rfl .none)),
    ?_, ?_, ?_, ?_⟩
  · exact (reduction_settles_and_folds _).2.1 .unaryOperator _ rfl
  · exact fun _ _ => (reduction_settles_and_folds _).1 _ _ _ _ rfl
  · exact (reduction_settles_and_folds _).2.2.1 [.unaryOperator, .infixOperator, .infixOperator] _
      (.next rfl (.next rfl (.next rfl .none)))
  · obtain ⟨fired, honly⟩ := (reduction_settles_and_folds _).2.2.2.1
    refine ((honly [.unaryOperator, .infixOperator, .infixOperator] _).1
      ⟨.next rfl (.next rfl (.next rfl .none)), ?_⟩).2
    intro rule
    cases rule <;> rfl
  · exact (reduction_settles_and_folds _).2.2.2.2.1 _ fun rule => List.mem_reverse.2 rule.mem_all
  · exact (reduction_settles_and_folds _).2.2.2.2.2 _ _ rfl (by simp [State.Bounded, Item.kind])

end OperatorTerms
