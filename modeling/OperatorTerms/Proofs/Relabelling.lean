/-
Module: OperatorTerms.Proofs.Relabelling
Layer: Proofs
Purpose: Changing the texts of tokens. Labels may be changed at will, even into those of
  placeholders; discriminators must only stay apart where they were apart. What is made of the
  tokens (items, nodes, records, states) changes along, except for the placeholders, which no token
  has named. The kinds stay as they are and so does which parentheses pair, hence every reduction
  of the changed state is the changed reduction.
Imports: OperatorTerms.Proofs.ReductionFold
Main exports: Relabelling, Relabelling.token, Relabelling.tree, Relabelling.state,
  Relabelling.pairsWith_token, Relabelling.reduct?_state, Relabelling.reduceAll_state
-/
import OperatorTerms.Proofs.ReductionFold

namespace OperatorTerms

/-- A change of the texts of tokens. Labels may coincide after it, discriminators may not. -/
structure Relabelling where
  label : String → String
  discriminator : String → String
  injective : Function.Injective discriminator

/-- A kind that takes operands is not that of a placeholder. -/
theorem Kind.ne_term_of_isInfix {kind : Kind} (h : kind.isInfix = true) : kind ≠ .term := by
  rintro rfl
  contradiction

theorem Kind.ne_term_of_isUnary {kind : Kind} (h : kind.isUnary = true) : kind ≠ .term := by
  rintro rfl
  contradiction

namespace Relabelling

variable (change : Relabelling)

/-! ### What is changed -/

/-- The token with the texts changed. -/
def token (token : Token) : Token :=
  ⟨token.kind, change.label token.label, change.discriminator token.discriminator⟩

/-- The changed token at the same position. -/
def placed (placed : Placed) : Placed := ⟨placed.position, change.token placed.token⟩

/-- A term stays what it is; its label is in the forest. -/
def item : Item → Item
  | .token placed => .token (change.placed placed)
  | .term id => .term id

/-- The new label of a node: placeholders keep theirs. -/
def nodeLabel (kind : Kind) (label : String) : String :=
  if kind = .term then label else change.label label

/-- The node with its label changed. -/
def node (node : Node) : Node := { node with label := change.nodeLabel node.kind node.label }

/-- The forest with the labels of its nodes changed. -/
def forest (forest : Forest) : Forest := ⟨forest.nodes.map change.node⟩

/-- The tree with the labels of its nodes changed. -/
def tree (tree : Tree) : Tree := ⟨change.forest tree.forest, tree.root⟩

/-- The record of a step over changed tokens. The other records do not cite any. -/
def record : Record → Record
  | .shift label items => .shift (change.label label) items
  | .reduceInfix label => .reduceInfix (change.label label)
  | .reduceUnary label => .reduceUnary (change.label label)
  | .reduceGroup opened closed => .reduceGroup (change.label opened) (change.label closed)
  | .reduceEmptyGroup opened closed =>
      .reduceEmptyGroup (change.label opened) (change.label closed)
  | .dropSemicolon label closed => .dropSemicolon (change.label label) (change.label closed)
  | record => record

/-- The state that the parser would have reached over the changed tokens. -/
def state (state : State) : State where
  stack := state.stack.map change.item
  forest := change.forest state.forest
  log := state.log.map change.record

/-! ### Kinds and pairs stay -/

@[simp]
theorem kind_token (token : Token) : (change.token token).kind = token.kind := rfl

@[simp]
theorem label_token (token : Token) : (change.token token).label = change.label token.label := rfl

@[simp]
theorem token_placed (placed : Placed) :
    (change.placed placed).token = change.token placed.token := rfl

@[simp]
theorem position_placed (placed : Placed) : (change.placed placed).position = placed.position :=
  rfl

@[simp]
theorem kind_item (item : Item) : (change.item item).kind = item.kind := by
  cases item <;> rfl

@[simp]
theorem isTerm_item (item : Item) : (change.item item).isTerm = item.isTerm := by
  cases item <;> rfl

/-- Two parentheses pair after the change if they paired before. -/
@[simp]
theorem pairsWith_token (opened closed : Token) :
    (change.token opened).pairsWith (change.token closed) = opened.pairsWith closed := by
  have hdiscriminator : (change.discriminator opened.discriminator ==
      change.discriminator closed.discriminator) =
        (opened.discriminator == closed.discriminator) := by
    rw [Bool.eq_iff_iff, beq_iff_eq, beq_iff_eq]
    exact change.injective.eq_iff
  simp only [Token.pairsWith, kind_token]
  rw [← hdiscriminator]
  rfl

/-! ### The forest -/

@[simp]
theorem nodeLabel_term (label : String) : change.nodeLabel .term label = label := if_pos rfl

theorem nodeLabel_of_ne {kind : Kind} (h : kind ≠ .term) (label : String) :
    change.nodeLabel kind label = change.label label := if_neg h

@[simp]
theorem size_forest (forest : Forest) : (change.forest forest).size = forest.size :=
  Array.size_map

/-- Labels and parents are changed independently. -/
theorem map_modify (nodes : Array Node) (operand parent : NodeId) :
    (nodes.modify operand fun node => { node with parent := some parent }).map change.node =
      (nodes.map change.node).modify operand fun node => { node with parent := some parent } := by
  apply Array.ext
  · simp
  · intro id _ _
    simp only [Array.getElem_map, Array.getElem_modify]
    split <;> rfl

theorem forest_adopt (forest : Forest) (parent : NodeId) (operands : List NodeId) :
    change.forest (forest.adopt parent operands) =
      (change.forest forest).adopt parent operands := by
  rcases forest with ⟨nodes⟩
  simp only [Relabelling.forest, Forest.adopt, Forest.mk.injEq]
  induction operands generalizing nodes with
  | nil => rfl
  | cons operand operands ih =>
      simp only [List.foldl_cons]
      rw [ih, change.map_modify]

/-- A node is added to the changed forest with its changed label. -/
theorem forest_apply (forest : Forest) (kind : Kind) (label : String) (operands : List NodeId) :
    change.forest (forest.apply kind label operands) =
      (change.forest forest).apply kind (change.nodeLabel kind label) operands := by
  have hadopt := congrArg Forest.nodes (change.forest_adopt forest forest.size operands)
  simp only [Relabelling.forest] at hadopt
  simp only [Forest.apply, Relabelling.forest, Array.map_push, hadopt, Forest.mk.injEq]
  rw [show (⟨forest.nodes.map change.node⟩ : Forest).size = forest.size from Array.size_map]
  rfl

/-! ### States -/

@[simp]
theorem stack_state (state : State) :
    (change.state state).stack = state.stack.map change.item := rfl

theorem state_note (state : State) (record : Record) :
    change.state (state.note record) = (change.state state).note (change.record record) := rfl

theorem state_push (state : State) (item : Item) :
    change.state (state.push item) = (change.state state).push (change.item item) := rfl

/-- An operator builds the changed term over the same operands. -/
theorem state_build (state : State) {operator : Token} (hkind : operator.kind ≠ .term)
    (operands : List NodeId) (below : List Item) :
    change.state (state.build operator operands below) =
      (change.state state).build (change.token operator) operands (below.map change.item) := by
  simp only [Relabelling.state, State.build, forest_apply, change.nodeLabel_of_ne hkind,
    size_forest, List.map_cons]
  rfl

theorem state_buildLeaf (state : State) (kind : Kind) (label : String) (below : List Item) :
    change.state (state.buildLeaf kind label below) =
      (change.state state).buildLeaf kind (change.nodeLabel kind label)
        (below.map change.item) := by
  simp only [Relabelling.state, State.buildLeaf, Forest.leaf, forest_apply, size_forest,
    List.map_cons]
  rfl

@[simp]
theorem topKind?_state (state : State) : (change.state state).topKind? = state.topKind? := by
  rcases state with ⟨_ | ⟨top, below⟩, forest, log⟩
  · rfl
  · exact congrArg some (change.kind_item top)

@[simp]
theorem topIsTerm_state (state : State) : (change.state state).topIsTerm = state.topIsTerm := by
  rcases state with ⟨_ | ⟨top, below⟩, forest, log⟩
  · rfl
  · exact change.isTerm_item top

/-! ### Reductions -/

/-- A rule fits the changed state if it fits the state, and then it leads to the changed result. -/
theorem reduct?_state (rule : Rule) (state : State) :
    rule.reduct? (change.state state) = (rule.reduct? state).map change.state := by
  rcases state with ⟨stack, forest, log⟩
  -- Of the forms that the top of the stack can have each rule fits one.
  cases rule with
  | infixOperator =>
      rcases stack with _ | ⟨_ | right, _ | ⟨operator | _, _ | ⟨_ | left, below⟩⟩⟩
      case cons.term.cons.token.cons.term =>
        cases hkind : operator.token.kind.isInfix with
        | false => simp [Rule.reduct?, item, hkind]
        | true =>
            simp [Rule.reduct?, item, hkind, record, state_note,
              change.state_build _ (Kind.ne_term_of_isInfix hkind)]
      all_goals rfl
  | group =>
      rcases stack with _ | ⟨closed | _, _ | ⟨_ | inner, _ | ⟨opened | _, below⟩⟩⟩
      case cons.token.cons.term.cons.token =>
        cases hpairs : opened.token.pairsWith closed.token with
        | false => simp [Rule.reduct?, item, hpairs]
        | true => simp [Rule.reduct?, item, hpairs, record, Relabelling.state, State.note]
      all_goals rfl
  | emptyGroup =>
      rcases stack with _ | ⟨closed | _, _ | ⟨opened | _, below⟩⟩
      case cons.token.cons.token =>
        cases hpairs : opened.token.pairsWith closed.token with
        | false => simp [Rule.reduct?, item, hpairs]
        | true => simp [Rule.reduct?, item, hpairs, record, state_note, state_buildLeaf]
      all_goals rfl
  | redundantSemicolon =>
      rcases stack with _ | ⟨closed | _, _ | ⟨semicolon | _, below⟩⟩
      case cons.token.cons.token =>
        cases hkinds : semicolon.token.kind == .semicolon && closed.token.kind == .closing with
        | false => simp [Rule.reduct?, item, hkinds]
        | true => simp [Rule.reduct?, item, hkinds, record, Relabelling.state, State.note]
      all_goals rfl
  | unaryOperator =>
      rcases stack with _ | ⟨_ | operand, _ | ⟨operator | _, below⟩⟩
      case cons.term.cons.token =>
        cases hkind : operator.token.kind.isUnary with
        | false => simp [Rule.reduct?, item, hkind]
        | true =>
            simp [Rule.reduct?, item, hkind, record, state_note,
              change.state_build _ (Kind.ne_term_of_isUnary hkind)]
      all_goals rfl

theorem reduce?_state (state : State) :
    (change.state state).reduce? = state.reduce?.map change.state := by
  rw [State.reduce?, State.reduce?, State.reduceWith?, State.reduceWith?, List.map_findSome?]
  congr 1
  funext rule
  exact change.reduct?_state rule state

/-- Reducing the changed state as far as possible changes the reduced state. -/
theorem reduceAll_state (state : State) :
    (change.state state).reduceAll = change.state state.reduceAll := by
  rw [State.reduceAll.eq_1 state]
  -- The reductions of the changed state follow those of the state, one by one.
  fun_induction State.reduceAllWith Rule.all state with
  | case1 state hnone =>
      apply State.reduceAll_of_reduce?_eq_none
      rw [reduce?_state, State.reduce?, hnone]
      rfl
  | case2 state reduced hsome ih =>
      rw [← ih]
      apply State.reduceAll_of_reduce?_eq_some
      rw [reduce?_state, State.reduce?, hsome]
      rfl

theorem prefixReduct?_state (state : State) :
    (change.state state).prefixReduct? = state.prefixReduct?.map change.state := by
  rcases state with ⟨stack, forest, log⟩
  rcases stack with _ | ⟨_ | operand, _ | ⟨operator | _, below⟩⟩
  case cons.term.cons.token =>
    cases hkind : operator.token.kind == .prefixOp with
    | false => simp [State.prefixReduct?, item, hkind]
    | true => simp [State.prefixReduct?, item, hkind, reduct?_state]
  all_goals rfl

/-- The prefix operators before a term are those of the changed state. -/
theorem reducePrefixes_state (state : State) :
    (change.state state).reducePrefixes = change.state state.reducePrefixes := by
  fun_induction State.reducePrefixes state with
  | case1 state hnone =>
      apply State.reducePrefixes_of_prefixReduct?_eq_none
      rw [prefixReduct?_state, hnone]
      rfl
  | case2 state reduced hsome ih =>
      rw [← ih]
      apply State.reducePrefixes_of_prefixReduct?_eq_some
      rw [prefixReduct?_state, hsome]
      rfl

end Relabelling

end OperatorTerms
