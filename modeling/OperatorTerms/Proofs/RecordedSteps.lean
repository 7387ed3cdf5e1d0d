/-
Module: OperatorTerms.Proofs.RecordedSteps
Layer: Proofs
Purpose: What the parser records on its way. An operator is recorded when it is applied, in the same
  step that builds its node, so the records of operators are those of the nodes built so far, in the
  order in which they were built; this holds whatever rule comes next. The other records are about
  tokens and groups. Unless a closing parenthesis is on the stack reduction makes none of these, so
  a token that is no closing parenthesis leaves the record that it was taken and nothing else.
Imports: OperatorTerms.Proofs.ForestGrowth, OperatorTerms.Proofs.ReachableStates
Main exports: Record.isOperator, Node.record, Forest.operators, State.Told, State.Notes,
  State.WithoutClosing, State.notes_reduceAll, State.notes_accept, State.notes_complete
-/
import OperatorTerms.Proofs.ForestGrowth
import OperatorTerms.Proofs.ReachableStates

namespace OperatorTerms

/-- Whether a record says that an operator was applied. -/
def Record.isOperator : Record → Bool
  | reduceInfix _ | reduceUnary _ => true
  | _ => false

/-- Whether a node stands for an operator. -/
def Node.isOperator (node : Node) : Bool := node.kind.isInfix || node.kind.isUnary

/-- The record of the operator that a node stands for. -/
def Node.record (node : Node) : Record :=
  if node.kind.isInfix then .reduceInfix node.label else .reduceUnary node.label

theorem Node.isOperator_record (node : Node) : node.record.isOperator = true := by
  rw [record]
  split <;> rfl

namespace Forest

/-- The nodes of operators, in the order in which they were built. -/
def operators (forest : Forest) : List NodeId :=
  (List.range forest.size).filter fun id => (forest.node id).isOperator

/-- The records of the operators, in the order in which their nodes were built. -/
def records (forest : Forest) : List Record :=
  forest.operators.map fun id => (forest.node id).record

/-- A node that is added is the last one built, and the others keep their records. -/
theorem records_apply (forest : Forest) (kind : Kind) (label : String) (operands : List NodeId) :
    (forest.apply kind label operands).records =
      forest.records ++
        if kind.isInfix || kind.isUnary then [Node.record { kind, label, operands }] else [] := by
  have hextends := forest.extends_apply kind label operands
  have holder : (List.range forest.size).filter
      (fun id => ((forest.apply kind label operands).node id).isOperator) = forest.operators := by
    refine List.filter_congr fun id hid => ?_
    rw [Node.isOperator, Node.isOperator, hextends.kind_eq id (List.mem_range.1 hid)]
  have hrecords : forest.operators.map
      (fun id => ((forest.apply kind label operands).node id).record) = forest.records := by
    refine List.map_congr_left fun id hid => ?_
    have hlt := List.mem_range.1 (List.mem_filter.1 hid).1
    rw [Node.record, Node.record, hextends.kind_eq id hlt, hextends.label_eq id hlt]
  rw [records, operators, size_apply, List.range_succ, List.filter_append, holder, List.map_append,
    hrecords]
  congr 1
  rw [List.filter_singleton, node_apply_size]
  cases hkind : kind.isInfix || kind.isUnary with
  | true => simp [Node.isOperator, hkind, node_apply_size]
  | false => simp [Node.isOperator, hkind]

end Forest

namespace State

/-- The records of operators are those of the nodes, in the order in which they were built. -/
def Told (state : State) : Prop := state.log.reverse.filter Record.isOperator = state.forest.records

/-- On the way from one state to another the parser makes the given records apart from those of
    operators, and records the operators whose nodes it builds. -/
structure Notes (records : List Record) (state state' : State) : Prop where
  others : state'.log.reverse.filter (!·.isOperator) =
    state.log.reverse.filter (!·.isOperator) ++ records
  told : state.Told → state'.Told

/-- No closing parenthesis is on the stack. -/
def WithoutClosing (state : State) : Prop :=
  ∀ placed, .token placed ∈ state.stack → placed.token.kind ≠ .closing

variable {state between state' reduced : State} {records records' : List Record} {record : Record}
  {next : Placed} {kind : Kind} {label : String} {operands : List NodeId}

namespace Notes

theorem trans (h : Notes records state between) (h' : Notes records' between state') :
    Notes (records ++ records') state state' := by
  refine ⟨?_, h'.told ∘ h.told⟩
  rw [h'.others, h.others, List.append_assoc]

/-- Moving items leaves no record. -/
theorem restack (state : State) (stack : List Item) :
    Notes [] state ⟨stack, state.forest, state.log⟩ :=
  ⟨(List.append_nil _).symm, id⟩

/-- A record that is not about an operator is made by itself. -/
theorem single (state : State) (stack : List Item) (h : record.isOperator = false) :
    Notes [record] state ⟨stack, state.forest, record :: state.log⟩ := by
  constructor
  · rw [List.reverse_cons, List.filter_append]
    simp [h]
  · intro htold
    rw [Told, List.reverse_cons, List.filter_append, htold]
    simp [h]

/-- A term without operands leaves no record. -/
theorem leaf (state : State) (stack : List Item) (h : (kind.isInfix || kind.isUnary) = false) :
    Notes [] state ⟨stack, state.forest.leaf kind label, state.log⟩ := by
  constructor
  · exact (List.append_nil _).symm
  · intro htold
    rw [Told, Forest.leaf, Forest.records_apply, h]
    exact htold.trans (List.append_nil _).symm

/-- The term of an operator is built and recorded at once. -/
theorem operator {before stack : List Item} {forest : Forest} {log : List Record}
    (h : (kind.isInfix || kind.isUnary) = true) :
    Notes [] ⟨before, forest, log⟩ ⟨stack, forest.apply kind label operands,
      Node.record { kind, label, operands } :: log⟩ := by
  have hrecord := Node.isOperator_record { kind, label, operands }
  constructor
  · rw [List.reverse_cons, List.filter_append]
    simp [hrecord]
  · intro htold
    rw [Told, Forest.records_apply, h, List.reverse_cons, List.filter_append, htold]
    simp [hrecord]

end Notes

theorem WithoutClosing.mono (h : state.WithoutClosing)
    (hsub : ∀ placed, .token placed ∈ state'.stack → .token placed ∈ state.stack) :
    state'.WithoutClosing :=
  fun placed hmem => h placed (hsub placed hmem)

/-! ### Reduction -/

/-- The rules for operators alone apply where no closing parenthesis is on the stack. -/
theorem Reduces.notes (h : Reduces state reduced) (hopen : state.WithoutClosing) :
    Notes [] state reduced ∧ reduced.WithoutClosing := by
  cases h with
  | @infixOperator operator left right below forest log hkind =>
      have hrecord : Node.record ⟨operator.token.kind, operator.token.label, [left, right], none⟩ =
          .reduceInfix operator.token.label := if_pos hkind
      constructor
      · rw [← hrecord]
        exact .operator (by simp [hkind])
      · exact hopen.mono (by simp +contextual)
  | @unaryOperator operator operand below forest log hkind =>
      have hinfix : ¬ operator.token.kind.isInfix = true := by
        intro hinfix
        rw [Kind.isUnary_of_isInfix hinfix] at hkind
        contradiction
      have hrecord : Node.record ⟨operator.token.kind, operator.token.label, [operand], none⟩ =
          .reduceUnary operator.token.label := if_neg hinfix
      constructor
      · rw [← hrecord]
        exact .operator (by simp [hkind])
      · exact hopen.mono (by simp +contextual)
  | group hpairs => exact absurd (Token.kind_of_pairsWith hpairs).2 (hopen _ (by simp))
  | emptyGroup hpairs => exact absurd (Token.kind_of_pairsWith hpairs).2 (hopen _ (by simp))
  | redundantSemicolon hkinds =>
      simp only [Bool.and_eq_true, beq_iff_eq] at hkinds
      exact absurd hkinds.2 (hopen _ (by simp))

theorem notes_reduceAllWith (rules : List Rule) (hopen : state.WithoutClosing) :
    Notes [] state (state.reduceAllWith rules) ∧ (state.reduceAllWith rules).WithoutClosing := by
  fun_induction State.reduceAllWith rules state with
  | case1 state _ => exact ⟨.restack state _, hopen⟩
  | case2 state reduced hreduced ih =>
      obtain ⟨rule, -, hreduct⟩ := List.exists_of_findSome?_eq_some hreduced
      obtain ⟨hnotes, hopen⟩ := (reduces_of_reduct? hreduct).notes hopen
      obtain ⟨hrest, hopen⟩ := ih hopen
      exact ⟨hnotes.trans hrest, hopen⟩

theorem notes_reduceAll (hopen : state.WithoutClosing) :
    Notes [] state state.reduceAll ∧ state.reduceAll.WithoutClosing :=
  notes_reduceAllWith Rule.all hopen

theorem notes_reducePrefixes (hopen : state.WithoutClosing) :
    Notes [] state state.reducePrefixes := by
  fun_induction State.reducePrefixes state with
  | case1 state _ => exact .restack state _
  | case2 state reduced hreduced ih =>
      obtain ⟨hnotes, hopen⟩ := (reduces_of_reduct? (reduct?_of_prefixReduct? hreduced)).notes hopen
      exact hnotes.trans (ih hopen)

/-! ### Tokens -/

theorem notes_acceptSuffix (hopen : state.WithoutClosing) (hkind : next.token.kind ≠ .closing)
    (haccept : state.acceptSuffix next = .ok state') : Notes [] state state' := by
  unfold State.acceptSuffix at haccept
  split at haccept
  · rename_i operand below hstack
    have htucked : WithoutClosing
        { state with stack := .term operand :: .token next :: below } := by
      intro placed hmem
      simp only [List.mem_cons, Item.token.injEq, reduceCtorEq, false_or] at hmem
      rcases hmem with rfl | hmem
      · exact hkind
      · exact hopen placed (hstack ▸ List.mem_cons_of_mem _ hmem)
    have hnotes := Notes.restack state (.term operand :: .token next :: below)
    cases haccept
    cases hreduct : Rule.unaryOperator.reduct? _ with
    | none => exact hnotes
    | some reduced => exact hnotes.trans ((reduces_of_reduct? hreduct).notes htucked).1
  · exact absurd haccept (reject_ne_ok _ _ _)

theorem notes_acceptSemicolon (hopen : state.WithoutClosing) :
    Notes [] state (state.acceptSemicolon next) := by
  unfold State.acceptSemicolon
  split
  · exact (notes_reduceAll hopen).1.trans (.restack _ _)
  · have hleaf : Notes [] state (state.buildLeaf .term Term.emptyStatementLabel state.stack) :=
      .leaf state _ rfl
    have hopen' : (state.buildLeaf .term Term.emptyStatementLabel state.stack).WithoutClosing :=
      hopen.mono (by simp [buildLeaf])
    exact hleaf.trans ((notes_reduceAll hopen').1.trans (.restack _ _))

theorem notes_acceptVariable (hopen : state.WithoutClosing) (hkind : next.token.kind = .var) :
    Notes [] state (state.acceptVariable next) := by
  have hleaf : Notes [] state (state.buildLeaf next.token.kind next.token.label state.stack) :=
    .leaf state _ (by rw [hkind]; rfl)
  exact hleaf.trans (notes_reducePrefixes (hopen.mono (by simp [buildLeaf])))

/-- A token that is no closing parenthesis leaves the record that it was taken. -/
theorem notes_accept (hopen : state.WithoutClosing) (hkind : next.token.kind ≠ .closing)
    (haccept : state.accept next = .ok state') :
    Notes [.shift next.token.label state.stack.length] state state' := by
  have hshift : Notes [.shift next.token.label state.stack.length] state
      (state.note (.shift next.token.label state.stack.length)) := .single state _ rfl
  have hopen' : (state.note (.shift next.token.label state.stack.length)).WithoutClosing := hopen
  unfold State.accept at haccept
  split at haccept
  · simp only at haccept
    split at haccept
    case h_5 hclosing => exact absurd hclosing hkind
    case h_6 => exact hshift.trans (notes_acceptSuffix hopen' hkind haccept)
    case h_7 =>
      cases haccept
      exact hshift.trans (notes_acceptSemicolon hopen')
    case h_8 hvar =>
      cases haccept
      exact hshift.trans (notes_acceptVariable hopen' hvar)
    case h_9 => exact absurd haccept (reject_ne_ok _ _ _)
    all_goals
      cases haccept
      exact hshift.trans (.restack _ _)
  · exact absurd haccept (reject_ne_ok _ _ _)

theorem notes_complete (hopen : state.WithoutClosing) : Notes [] state state.complete := by
  unfold State.complete
  split
  · rename_i top below hstack
    split
    · have hbelow : WithoutClosing { state with stack := below } :=
        hopen.mono fun _ hmem => hstack ▸ List.mem_cons_of_mem _ hmem
      exact (Notes.restack state below).trans (notes_reduceAll hbelow).1
    · exact (notes_reduceAll hopen).1
  · exact (notes_reduceAll hopen).1

end State

end OperatorTerms
