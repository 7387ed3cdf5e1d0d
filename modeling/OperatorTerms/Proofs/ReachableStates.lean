/-
Module: OperatorTerms.Proofs.ReachableStates
Layer: Proofs
Purpose: What holds of the parser at every moment. A parse is a sequence of small changes: a token
  is pushed or dropped, a leaf is built, a rule is applied. Whatever their order, the nodes on the
  stack are the roots of the forest, each of them once, and every node is made of a token of the
  sequence with as many operands as its kind takes, or is a placeholder. When a parse succeeds a
  single node is on the stack, which therefore holds all the others.
Imports: OperatorTerms.Parse, OperatorTerms.Proofs.Adjacency,
  OperatorTerms.Proofs.ForestOwnership
Main exports: Kind.arity?, Made, State.nodes, State.Reachable, State.Intact,
  State.Reachable.intact, State.Reachable.acceptAll, Tree.Whole, owned_while_parsing
-/
import OperatorTerms.Parse
import OperatorTerms.Proofs.Adjacency
import OperatorTerms.Proofs.ForestOwnership

namespace OperatorTerms

/-- How many operands a node of the given kind has. No node stands for a parenthesis. -/
def Kind.arity? : Kind → Option Nat
  | var | term => some 0
  | prefixOp | suffixOp => some 1
  | assign | dyad | semicolon => some 2
  | opening | closing => none

theorem Kind.arity?_eq_one_iff {kind : Kind} : kind.arity? = some 1 ↔ kind.isUnary = true := by
  cases kind <;> decide

theorem Kind.arity?_eq_two_iff {kind : Kind} : kind.arity? = some 2 ↔ kind.isInfix = true := by
  cases kind <;> decide

/-- Kind, label and number of operands of a node that stands for a token of the sequence, or for
    something that is missing. -/
inductive Made (tokens : List Token) : Kind → String → Nat → Prop where
  | token {token : Token} {operands : Nat} : token ∈ tokens → token.kind.arity? = some operands →
      Made tokens token.kind token.label operands
  | placeholder {label : String} : label ∈ [Term.emptyStatementLabel, Term.emptyGroupLabel] →
      Made tokens .term label 0

/-- The node of an item, if the item is a term. -/
def Item.node? : Item → Option NodeId
  | token _ => none
  | term id => some id

/-- The nodes among some items, top first. -/
def Item.nodes (items : List Item) : List NodeId := items.filterMap node?

namespace State

/-- The nodes on the stack, top first. -/
def nodes (state : State) : List NodeId := Item.nodes state.stack

/-- The states that the changes of the parser lead to, one change at a time: the ones between two
    tokens as well as those in the middle of taking a token or of completing the stack. Any order
    of the changes counts, so all the states that the parser passes through are among these. -/
inductive Reachable (tokens : List Token) : State → Prop where
  | start : Reachable tokens (initial tokens.length)
  | note {state : State} {record : Record} :
      Reachable tokens state → Reachable tokens (state.note record)
  /-- A token is put on the stack. -/
  | push {state : State} {placed : Placed} : Reachable tokens state → placed.token ∈ tokens →
      Reachable tokens (state.push (.token placed))
  /-- A token is put below the term on top. -/
  | tuck {state : State} {placed : Placed} {operand : NodeId} {below : List Item} :
      Reachable tokens state → placed.token ∈ tokens → state.stack = .term operand :: below →
        Reachable tokens { state with stack := .term operand :: .token placed :: below }
  /-- A variable becomes a term. -/
  | name {state : State} {token : Token} : Reachable tokens state → token ∈ tokens →
      token.kind = .var → Reachable tokens (state.buildLeaf token.kind token.label state.stack)
  /-- A placeholder takes the place of a statement. -/
  | missing {state : State} : Reachable tokens state →
      Reachable tokens (state.buildLeaf .term Term.emptyStatementLabel state.stack)
  | reduce {rule : Rule} {state reduced : State} : Reachable tokens state →
      rule.reduct? state = some reduced → Reachable tokens reduced
  /-- The token on top is dropped. -/
  | drop {state : State} {top : Placed} {below : List Item} : Reachable tokens state →
      state.stack = .token top :: below → Reachable tokens { state with stack := below }

/-- What applying a rule does to a state. -/
inductive Reduces : State → State → Prop where
  | infixOperator {operator : Placed} {left right : NodeId} {below : List Item} {forest : Forest}
      {log : List Record} : operator.token.kind.isInfix = true →
      Reduces ⟨.term right :: .token operator :: .term left :: below, forest, log⟩
        ⟨.term forest.size :: below,
          forest.apply operator.token.kind operator.token.label [left, right],
          .reduceInfix operator.token.label :: log⟩
  | group {opened closed : Placed} {inner : NodeId} {below : List Item} {forest : Forest}
      {log : List Record} : opened.token.pairsWith closed.token = true →
      Reduces ⟨.token closed :: .term inner :: .token opened :: below, forest, log⟩
        ⟨.term inner :: below, forest,
          .reduceGroup opened.token.label closed.token.label :: log⟩
  | emptyGroup {opened closed : Placed} {below : List Item} {forest : Forest}
      {log : List Record} : opened.token.pairsWith closed.token = true →
      Reduces ⟨.token closed :: .token opened :: below, forest, log⟩
        ⟨.term forest.size :: below, forest.leaf .term Term.emptyGroupLabel,
          .reduceEmptyGroup opened.token.label closed.token.label :: log⟩
  | redundantSemicolon {semicolon closed : Placed} {below : List Item} {forest : Forest}
      {log : List Record} :
      (semicolon.token.kind == .semicolon && closed.token.kind == .closing) = true →
      Reduces ⟨.token closed :: .token semicolon :: below, forest, log⟩
        ⟨.token closed :: below, forest,
          .dropSemicolon semicolon.token.label closed.token.label :: log⟩
  | unaryOperator {operator : Placed} {operand : NodeId} {below : List Item} {forest : Forest}
      {log : List Record} : operator.token.kind.isUnary = true →
      Reduces ⟨.term operand :: .token operator :: below, forest, log⟩
        ⟨.term forest.size :: below,
          forest.apply operator.token.kind operator.token.label [operand],
          .reduceUnary operator.token.label :: log⟩

/-- The nodes on the stack are the roots of the forest, and all that was built was made of what the
    sequence gives. -/
structure Intact (tokens : List Token) (state : State) : Prop where
  owned : state.forest.Owned state.nodes
  made : state.forest.Every (Made tokens)
  given : ∀ placed, .token placed ∈ state.stack → placed.token ∈ tokens

variable {tokens : List Token} {state state' reduced : State} {below : List Item}
  {operands : List NodeId} {kind : Kind} {label : String}

/-! ### Single changes -/

theorem reduces_of_reduct? {rule : Rule} (h : rule.reduct? state = some reduced) :
    Reduces state reduced := by
  rcases state with ⟨stack, forest, log⟩
  unfold Rule.reduct? at h
  split at h
  case h_6 => contradiction
  all_goals
    split at h
    · rename_i hstack hfits
      cases h
      cases hstack
      constructor
      exact hfits
    · contradiction

/-- Prefix operators are applied by the rule for unary operators. -/
theorem reduct?_of_prefixReduct? (h : state.prefixReduct? = some reduced) :
    Rule.unaryOperator.reduct? state = some reduced := by
  unfold prefixReduct? at h
  split at h
  · split at h
    · exact h
    · contradiction
  · contradiction

theorem reject_ne_ok {α : Type} (state : State) (next : Placed) (result : α) :
    state.reject next ≠ .ok result := by
  unfold reject
  split <;> simp [fail]

theorem rejectClosing_ne_ok {α : Type} (state : State) (closed : Placed) (below : List Item)
    (result : α) : state.rejectClosing closed below ≠ .ok result := by
  simp only [rejectClosing, fail]
  split
  · split <;> simp
  · split <;> simp
  · simp

/-- A closing parenthesis is taken when reduction removes it. -/
theorem eq_of_acceptClosing {closed : Placed} (h : state.acceptClosing closed = .ok state') :
    state' = (state.reduceAll.push (.token closed)).reduceAll := by
  simp only [acceptClosing] at h
  split at h
  · split at h
    · exact absurd h (rejectClosing_ne_ok _ _ _ _)
    · exact (Except.ok.inj h).symm
  · exact (Except.ok.inj h).symm

namespace Intact

theorem initial (tokens : List Token) : Intact tokens (initial tokens.length) := by
  refine ⟨Forest.Owned.initial, ?_, ?_⟩
  · intro id hid
    exact absurd hid (Nat.not_lt_zero id)
  · intro placed hmem
    contradiction

/-- Tokens may come and go. -/
theorem restack {log : List Record} (h : Intact tokens state)
    (hnodes : Item.nodes below = state.nodes)
    (hgiven : ∀ placed, .token placed ∈ below → placed.token ∈ tokens) :
    Intact tokens ⟨below, state.forest, log⟩ :=
  ⟨(congrArg state.forest.Owned hnodes).mpr h.owned, h.made, hgiven⟩

/-- A node built on nodes of the stack takes their place. -/
theorem build {log : List Record} (h : Intact tokens state)
    (hperm : state.nodes.Perm (operands ++ Item.nodes below))
    (hbelow : ∀ item ∈ below, item ∈ state.stack) (hmade : Made tokens kind label operands.length) :
    Intact tokens
      ⟨.term state.forest.size :: below, state.forest.apply kind label operands, log⟩ := by
  refine ⟨h.owned.apply hperm, h.made.apply hmade, ?_⟩
  intro placed hmem
  rcases List.mem_cons.1 hmem with heq | hmem
  · contradiction
  · exact h.given placed (hbelow _ hmem)

theorem reduces (h : Intact tokens state) (hreduces : Reduces state reduced) :
    Intact tokens reduced := by
  cases hreduces with
  | @infixOperator operator left right _ _ _ hkind =>
      refine h.build (.swap ..) (by simp +contextual) (.token (h.given operator (by simp)) ?_)
      exact Kind.arity?_eq_two_iff.2 hkind
  | group _ => exact h.restack rfl fun placed hmem => h.given placed (by simp_all)
  | emptyGroup _ => exact h.build .rfl (by simp +contextual) (.placeholder (by simp))
  | redundantSemicolon _ =>
      refine h.restack rfl fun placed hmem => h.given placed ?_
      rcases List.mem_cons.1 hmem with heq | hmem
      · exact heq ▸ List.mem_cons_self
      · exact List.mem_cons_of_mem _ (List.mem_cons_of_mem _ hmem)
  | @unaryOperator operator operand _ _ _ hkind =>
      refine h.build .rfl (by simp +contextual) (.token (h.given operator (by simp)) ?_)
      exact Kind.arity?_eq_one_iff.2 hkind

end Intact

namespace Reachable

/-- Every change keeps the stack and the forest together. -/
theorem intact (h : Reachable tokens state) : Intact tokens state := by
  induction h with
  | start => exact .initial tokens
  | note _ ih => exact ih.restack rfl ih.given
  | @push state placed _ hplaced ih =>
      refine ih.restack rfl fun other hmem => ?_
      rcases List.mem_cons.1 hmem with heq | hmem
      · cases heq
        exact hplaced
      · exact ih.given other hmem
  | @tuck state placed operand below _ hplaced hstack ih =>
      refine ih.restack ?_ fun other hmem => ?_
      · rw [nodes, hstack]
        rfl
      · have hgiven := hstack ▸ ih.given other
        simp only [List.mem_cons, Item.token.injEq, reduceCtorEq, false_or] at hmem hgiven
        rcases hmem with rfl | hmem
        · exact hplaced
        · exact hgiven hmem
  | @name state token _ htoken hkind ih =>
      refine ih.build .rfl (fun _ => id) (.token htoken ?_)
      rw [hkind]
      rfl
  | missing _ ih => exact ih.build .rfl (fun _ => id) (.placeholder (by simp))
  | reduce _ hreduct ih => exact ih.reduces (reduces_of_reduct? hreduct)
  | @drop state top below _ hstack ih =>
      refine ih.restack ?_ fun placed hmem => ?_
      · rw [nodes, hstack]
        rfl
      · exact ih.given placed (hstack ▸ List.mem_cons_of_mem _ hmem)

/-! ### The steps of the parser -/

theorem reduceAllWith (rules : List Rule) (h : Reachable tokens state) :
    Reachable tokens (state.reduceAllWith rules) := by
  fun_induction State.reduceAllWith rules state with
  | case1 state _ => exact h
  | case2 state reduced hreduced ih =>
      obtain ⟨rule, -, hreduct⟩ := List.exists_of_findSome?_eq_some hreduced
      exact ih (h.reduce hreduct)

theorem reduceAll (h : Reachable tokens state) : Reachable tokens state.reduceAll :=
  h.reduceAllWith Rule.all

theorem reducePrefixes (h : Reachable tokens state) : Reachable tokens state.reducePrefixes := by
  fun_induction State.reducePrefixes state with
  | case1 state _ => exact h
  | case2 state reduced hreduced ih => exact ih (h.reduce (reduct?_of_prefixReduct? hreduced))

theorem acceptClosing {closed : Placed} (h : Reachable tokens state)
    (hclosed : closed.token ∈ tokens) (haccept : state.acceptClosing closed = .ok state') :
    Reachable tokens state' := by
  rw [eq_of_acceptClosing haccept]
  exact (h.reduceAll.push hclosed).reduceAll

theorem acceptSuffix {suffix : Placed} (h : Reachable tokens state)
    (hsuffix : suffix.token ∈ tokens) (haccept : state.acceptSuffix suffix = .ok state') :
    Reachable tokens state' := by
  unfold State.acceptSuffix at haccept
  split at haccept
  · rename_i operand below hstack
    have htucked := h.tuck hsuffix hstack
    cases haccept
    cases hreduct : Rule.unaryOperator.reduct? _ with
    | none => exact htucked
    | some reduced => exact htucked.reduce hreduct
  · exact absurd haccept (reject_ne_ok _ _ _)

theorem acceptSemicolon {semicolon : Placed} (h : Reachable tokens state)
    (hsemicolon : semicolon.token ∈ tokens) :
    Reachable tokens (state.acceptSemicolon semicolon) := by
  unfold State.acceptSemicolon
  split
  · exact h.reduceAll.push hsemicolon
  · exact h.missing.reduceAll.push hsemicolon

theorem acceptVariable {name : Placed} (h : Reachable tokens state)
    (hname : name.token ∈ tokens) (hkind : name.token.kind = .var) :
    Reachable tokens (state.acceptVariable name) :=
  (h.name hname hkind).reducePrefixes

theorem accept {next : Placed} (h : Reachable tokens state) (hnext : next.token ∈ tokens)
    (haccept : state.accept next = .ok state') : Reachable tokens state' := by
  unfold State.accept at haccept
  split at haccept
  · have hnoted : Reachable tokens (state.note (.shift next.token.label state.stack.length)) :=
      h.note
    simp only at haccept
    split at haccept
    case h_5 => exact hnoted.acceptClosing hnext haccept
    case h_6 => exact hnoted.acceptSuffix hnext haccept
    case h_7 =>
      cases haccept
      exact hnoted.acceptSemicolon hnext
    case h_8 hkind =>
      cases haccept
      exact hnoted.acceptVariable hnext hkind
    case h_9 => exact absurd haccept (reject_ne_ok _ _ _)
    all_goals
      cases haccept
      exact hnoted.push hnext
  · exact absurd haccept (reject_ne_ok _ _ _)

theorem acceptAll {placed : List Placed} (h : Reachable tokens state)
    (hplaced : ∀ next ∈ placed, next.token ∈ tokens)
    (haccept : state.acceptAll placed = .ok state') : Reachable tokens state' := by
  induction placed generalizing state with
  | nil =>
      cases haccept
      exact h
  | cons next placed ih =>
      obtain ⟨between, hnext, haccept⟩ := bind_eq_ok_iff.1 haccept
      obtain ⟨hmem, hplaced⟩ := List.forall_mem_cons.1 hplaced
      exact ih (h.accept hmem hnext) hplaced haccept

theorem complete (h : Reachable tokens state) : Reachable tokens state.complete := by
  unfold State.complete
  split
  · rename_i hstack
    split
    · exact (h.drop hstack).reduceAll
    · exact h.reduceAll
  · exact h.reduceAll

end Reachable


/-- A parse that ends with a tree has the root of the tree alone on its stack. -/
theorem finish_eq_ok {last : Placed} {tree : Tree} (h : (state.finish last).result = .ok tree) :
    state.complete.stack = [.term tree.root] ∧ state.complete.forest = tree.forest := by
  simp only [finish] at h
  split at h
  · rename_i root hstack
    split at h
    · cases h
      exact ⟨hstack, rfl⟩
    · contradiction
  · contradiction

end State

/-! ### Finished trees -/

/-- Every node of the forest is in the tree, in one place, and has the operands that its kind
    calls for. -/
structure Tree.Whole (tree : Tree) : Prop where
  /-- In particular, the root is the only node without a parent. -/
  owned : tree.forest.Owned [tree.root]
  existsUnique_address : ∀ id < tree.forest.size, ∃! path, tree.forest.Address tree.root id path
  arity : ∀ id < tree.forest.size,
    (tree.node id).kind.arity? = some (tree.node id).operands.length

theorem Tree.Whole.root_lt {tree : Tree} (h : tree.Whole) : tree.root < tree.forest.size :=
  ((h.owned.mem_roots_iff tree.root).1 List.mem_cons_self).1

theorem Made.arity?_eq {tokens : List Token} {kind : Kind} {label : String} {operands : Nat}
    (h : Made tokens kind label operands) : kind.arity? = some operands := by
  cases h with
  | token _ harity => exact harity
  | placeholder _ => rfl

theorem token_mem_of_mem_all {tokens : List Token} {placed : Placed}
    (h : placed ∈ Placed.all tokens) : placed.token ∈ tokens := by
  have hmem := List.mem_map_of_mem (f := Placed.token) h
  rwa [Placed.all, map_token_from] at hmem

/-- A parse that ends with a tree has gone to a state that consists of this tree. -/
theorem exists_reachable_of_parse {tokens : List Token} {tree : Tree}
    (h : parse tokens = .ok tree) :
    ∃ log, State.Reachable tokens ⟨[.term tree.root], tree.forest, log⟩ := by
  simp only [parse, parseTraced] at h
  split at h
  · contradiction
  · split at h
    · contradiction
    · rename_i state haccept
      have hreachable := State.Reachable.start.acceptAll (fun _ => token_mem_of_mem_all) haccept
      obtain ⟨hstack, hforest⟩ := State.finish_eq_ok h
      refine ⟨state.complete.log, ?_⟩
      rw [← hstack, ← hforest]
      exact hreachable.complete

theorem whole_of_parse {tokens : List Token} {tree : Tree} (h : parse tokens = .ok tree) :
    tree.Whole := by
  obtain ⟨log, hreachable⟩ := exists_reachable_of_parse h
  obtain ⟨howned, hmade, -⟩ := hreachable.intact
  exact ⟨howned, fun id => howned.existsUnique_address, fun id hid => (hmade id hid).arity?_eq⟩

/-- While a sequence is parsed, the nodes on the stack own all that was built, and in the end the
    root of the tree does. -/
theorem owned_while_parsing (tokens : List Token) :
    (∀ front back state, Placed.all tokens = front ++ back →
        (State.initial tokens.length).acceptAll front = .ok state →
          State.Reachable tokens state ∧ State.Reachable tokens state.complete) ∧
      (∀ state, State.Reachable tokens state →
        state.forest.Owned state.nodes ∧ state.forest.Every (Made tokens)) ∧
      (∀ tree, parse tokens = .ok tree → tree.Whole) := by
  refine ⟨?_, ?_, fun tree => whole_of_parse⟩
  · intro front back state hall haccept
    have hreachable : State.Reachable tokens state := State.Reachable.start.acceptAll
      (fun next hnext => token_mem_of_mem_all (hall ▸ List.mem_append_left back hnext)) haccept
    exact ⟨hreachable, hreachable.complete⟩
  · intro state hreachable
    have hintact := hreachable.intact
    exact ⟨hintact.owned, hintact.made⟩

/-- A suffix operator is put below its operand before it is applied, and still takes it over. -/
theorem whole_of_group_with_suffix :
    parse [⟨.opening, "b", ""⟩, ⟨.var, "v1", ""⟩, ⟨.dyad, "d2", ""⟩, ⟨.var, "v3", ""⟩,
        ⟨.closing, "B", ""⟩, ⟨.suffixOp, "q4", ""⟩] =
      .ok ⟨⟨#[⟨.var, "v1", [], some 2⟩, ⟨.var, "v3", [], some 2⟩,
        ⟨.dyad, "d2", [0, 1], some 3⟩, ⟨.suffixOp, "q4", [2], none⟩]⟩, 3⟩ ∧
    Tree.Whole ⟨⟨#[⟨.var, "v1", [], some 2⟩, ⟨.var, "v3", [], some 2⟩,
      ⟨.dyad, "d2", [0, 1], some 3⟩, ⟨.suffixOp, "q4", [2], none⟩]⟩, 3⟩ := by
  have hparse : parse [⟨.opening, "b", ""⟩, ⟨.var, "v1", ""⟩, ⟨.dyad, "d2", ""⟩,
      ⟨.var, "v3", ""⟩, ⟨.closing, "B", ""⟩, ⟨.suffixOp, "q4", ""⟩] =
      .ok ⟨⟨#[⟨.var, "v1", [], some 2⟩, ⟨.var, "v3", [], some 2⟩,
        ⟨.dyad, "d2", [0, 1], some 3⟩, ⟨.suffixOp, "q4", [2], none⟩]⟩, 3⟩ := by
    decide +kernel
  exact ⟨hparse, (owned_while_parsing _).2.2 _ hparse⟩

end OperatorTerms
