/-
Module: OperatorTerms.Proofs.RelabelledOutcome
Layer: Proofs
Purpose: The texts of tokens decide nothing. Validating and parsing the changed sequence runs step
  by step through the changed states of the first run: both fail at the same place for the same
  reason, or both succeed, and then the second tree is the first one with its labels changed. The
  one place where the parser compares whole tokens is harmless, since the only token that can be on
  top after a closing parenthesis was reduced is that parenthesis itself.
Imports: OperatorTerms.Proofs.ReachableStates, OperatorTerms.Proofs.Relabelling
Main exports: SyntaxError.unlabelled, Agrees, Relabelling.agrees_accept,
  Relabelling.agrees_acceptAll, Relabelling.agrees_scan, outcome_of_relabelling,
  Relabelling.ontoPlaceholder
-/
import OperatorTerms.Proofs.ReachableStates
import OperatorTerms.Proofs.Relabelling

namespace OperatorTerms

/-! ### Errors apart from labels -/

/-- The citation of a kind alone. -/
def Element.unlabelled (element : Element) : Element := ⟨element.kind, ""⟩

/-- The reason without the labels that it cites: what remains are the positions, the kinds of the
    cited elements and the expected kinds. -/
def Reason.unlabelled : Reason → Reason
  | parenthesisMismatch _ openedAt _ closedAt => parenthesisMismatch "" openedAt "" closedAt
  | unexpectedClosing _ position expected => unexpectedClosing "" position expected
  | unclosed _ position => unclosed "" position
  | unexpectedStart element expected => unexpectedStart element.unlabelled expected
  | unexpectedElement element previous position expected =>
      unexpectedElement element.unlabelled previous.unlabelled position expected
  | unexpectedEnd last expected => unexpectedEnd last.unlabelled expected
  | incomplete last expected => incomplete last.unlabelled expected
  | empty expected => empty expected

/-- The error without the labels that its reason cites. -/
def SyntaxError.unlabelled (error : SyntaxError) : SyntaxError :=
  ⟨error.position, error.reason.unlabelled⟩

/-- The error of a failure without the labels that it cites. -/
def Failure.unlabelled (failure : Failure) : SyntaxError := failure.error.unlabelled

/-- Two runs that end alike: both with a value, the second of which is the changed first one, or
    both with errors that differ in labels at most. -/
inductive Agrees {ε α : Type} (outline : ε → SyntaxError) (change : α → α) :
    Except ε α → Except ε α → Prop where
  | ok (value : α) : Agrees outline change (.ok value) (.ok (change value))
  | error {error error' : ε} : outline error = outline error' →
      Agrees outline change (.error error) (.error error')

/-- If the first run has a value, so has the second. -/
theorem Agrees.of_ok {ε α : Type} {outline : ε → SyntaxError} {change : α → α} {value : α}
    {result : Except ε α} (h : Agrees outline change (.ok value) result) :
    result = .ok (change value) := by
  cases h with
  | ok _ => rfl

/-- If the first run fails, so does the second. -/
theorem Agrees.of_error {ε α : Type} {outline : ε → SyntaxError} {change : α → α} {error : ε}
    {result : Except ε α} (h : Agrees outline change (.error error) result) :
    ∃ error', result = .error error' ∧ outline error = outline error' := by
  cases h with
  | error heq => exact ⟨_, rfl, heq⟩

/-- Steps that end alike, one after the other. -/
theorem Agrees.bind {ε α β : Type} {outline : ε → SyntaxError} {change : α → α}
    {change' : β → β} {result result' : Except ε α} {next next' : α → Except ε β}
    (h : Agrees outline change result result')
    (hnext : ∀ value, Agrees outline change' (next value) (next' (change value))) :
    Agrees outline change' (result >>= next) (result' >>= next') := by
  cases h with
  | ok value => exact hnext value
  | error heq => exact .error heq

/-- Runs that take the same branch. -/
theorem Agrees.ite {ε α : Type} {outline : ε → SyntaxError} {change : α → α} {condition : Prop}
    [Decidable condition] {left left' right right' : Except ε α}
    (hleft : Agrees outline change left left') (hright : Agrees outline change right right') :
    Agrees outline change (if condition then left else right)
      (if condition then left' else right') := by
  split
  · exact hleft
  · exact hright

/-! ### The token on top -/

namespace State

variable {state reduced : State} {top : Placed} {below : List Item}

/-- A rule never brings a token to the top. -/
theorem Reduces.token_on_top (h : Reduces state reduced)
    (hstack : reduced.stack = .token top :: below) :
    ∃ below', state.stack = .token top :: below' := by
  cases h with
  | redundantSemicolon _ =>
      cases hstack
      exact ⟨_, rfl⟩
  | infixOperator _ | group _ | emptyGroup _ | unaryOperator _ => cases hstack

theorem token_on_top_of_reduceAllWith (rules : List Rule)
    (hstack : (state.reduceAllWith rules).stack = .token top :: below) :
    ∃ below', state.stack = .token top :: below' := by
  fun_induction State.reduceAllWith rules state with
  | case1 state _ => exact ⟨below, hstack⟩
  | case2 state reduced hreduced ih =>
      obtain ⟨rule, -, hreduct⟩ := List.exists_of_findSome?_eq_some hreduced
      obtain ⟨below', hbelow⟩ := ih hstack
      exact (reduces_of_reduct? hreduct).token_on_top hbelow

/-- When reduction leaves a token on top, it was there before. -/
theorem eq_of_reduceAll_push {item : Placed}
    (hstack : (state.push (.token item)).reduceAll.stack = .token top :: below) : top = item := by
  obtain ⟨below', hbelow⟩ := token_on_top_of_reduceAllWith Rule.all hstack
  cases hbelow
  rfl

end State

namespace Relabelling

variable (change : Relabelling)

/-! ### Rejections -/

theorem unlabelled_element_item (forest : Forest) (item : Item) :
    ((change.item item).element (change.forest forest)).unlabelled =
      (item.element forest).unlabelled := by
  cases item <;> rfl

theorem agrees_reject (state : State) (next : Placed) :
    Agrees Failure.unlabelled change.state (state.reject next)
      ((change.state state).reject (change.placed next)) := by
  rcases state with ⟨_ | ⟨top, below⟩, forest, log⟩
  · exact .error rfl
  · apply Agrees.error
    simp only [Failure.unlabelled, SyntaxError.unlabelled, Reason.unlabelled, SyntaxError.mk.injEq]
    constructor
    · rfl
    · congr 1
      · exact (change.unlabelled_element_item forest top).symm
      · rw [kind_item]

theorem agrees_rejectClosing (state : State) (closed : Placed) (below : List Item) :
    Agrees Failure.unlabelled change.state (state.rejectClosing closed below)
      ((change.state state).rejectClosing (change.placed closed) (below.map change.item)) := by
  rcases below with _ | ⟨opened | inner, below⟩
  · exact .error rfl
  · simp only [State.rejectClosing, List.map_cons, item, token_placed, kind_token]
    exact .ite (.error rfl) (.error rfl)
  · rcases below with _ | ⟨opened | other, below⟩
    · exact .error rfl
    · simp only [State.rejectClosing, List.map_cons, item, token_placed, kind_token]
      exact .ite (.error rfl) (.error rfl)
    · exact .error rfl

/-! ### One token -/

/-- Both runs reject the closing parenthesis, or both close a group with it. -/
theorem agrees_acceptClosing (state : State) (closed : Placed) :
    Agrees Failure.unlabelled change.state (state.acceptClosing closed)
      ((change.state state).acceptClosing (change.placed closed)) := by
  have hreduced : ((change.state state).reduceAll.push (.token (change.placed closed))).reduceAll =
      change.state (state.reduceAll.push (.token closed)).reduceAll := by
    rw [← reduceAll_state, state_push, reduceAll_state]
    rfl
  simp only [State.acceptClosing, hreduced]
  cases hstack : (state.reduceAll.push (.token closed)).reduceAll.stack with
  | nil =>
      simp only [stack_state, hstack, List.map_nil]
      exact .ok _
  | cons top below =>
      cases top with
      | term id =>
          simp only [stack_state, hstack, List.map_cons, item]
          exact .ok _
      | token top =>
          -- The comparison with the closing parenthesis succeeds in both runs.
          cases State.eq_of_reduceAll_push hstack
          simp only [stack_state, hstack, List.map_cons, item, if_true]
          exact change.agrees_rejectClosing _ closed below

theorem agrees_acceptSuffix (state : State) (suffix : Placed) :
    Agrees Failure.unlabelled change.state (state.acceptSuffix suffix)
      ((change.state state).acceptSuffix (change.placed suffix)) := by
  rcases state with ⟨_ | ⟨top | operand, below⟩, forest, log⟩
  · exact change.agrees_reject ⟨[], forest, log⟩ suffix
  · exact change.agrees_reject ⟨.token top :: below, forest, log⟩ suffix
  · let tucked : State := ⟨.term operand :: .token suffix :: below, forest, log⟩
    have happlied : (change.state ⟨.term operand :: below, forest, log⟩).acceptSuffix
        (change.placed suffix) =
          .ok (change.state ((Rule.unaryOperator.reduct? tucked).getD tucked)) := by
      rw [← Option.getD_map change.state, ← reduct?_state]
      rfl
    rw [happlied]
    exact .ok _

theorem acceptSemicolon_state (state : State) (semicolon : Placed) :
    (change.state state).acceptSemicolon (change.placed semicolon) =
      change.state (state.acceptSemicolon semicolon) := by
  simp only [State.acceptSemicolon, topIsTerm_state]
  split
  · rw [reduceAll_state, state_push]
    rfl
  · rw [state_push, ← reduceAll_state, state_buildLeaf]
    rfl

theorem acceptVariable_state (state : State) {name : Placed} (hkind : name.token.kind = .var) :
    (change.state state).acceptVariable (change.placed name) =
      change.state (state.acceptVariable name) := by
  rw [State.acceptVariable, State.acceptVariable, ← reducePrefixes_state, state_buildLeaf,
    change.nodeLabel_of_ne (by simp [hkind])]
  rfl

/-- Taking a changed token in a changed state ends as taking the token does. -/
theorem agrees_accept (state : State) (next : Placed) :
    Agrees Failure.unlabelled change.state (state.accept next)
      ((change.state state).accept (change.placed next)) := by
  have hnoted : (change.state state).note (.shift (change.token next.token).label
      (change.state state).stack.length) =
        change.state (state.note (.shift next.token.label state.stack.length)) := by
    rw [state_note, stack_state, List.length_map]
    rfl
  simp only [State.accept, topKind?_state, token_placed, kind_token, hnoted]
  apply Agrees.ite
  · cases hkind : next.token.kind with
    | assign | dyad | opening | prefixOp => exact .ok _
    | closing => exact change.agrees_acceptClosing _ next
    | suffixOp => exact change.agrees_acceptSuffix _ next
    | semicolon =>
        simp only [acceptSemicolon_state]
        exact .ok _
    | var =>
        simp only [change.acceptVariable_state _ hkind]
        exact .ok _
    | term => exact change.agrees_reject _ next
  · exact change.agrees_reject state next

/-- The runs over a sequence and over the changed one end alike. -/
theorem agrees_acceptAll (state : State) (placed : List Placed) :
    Agrees Failure.unlabelled change.state (state.acceptAll placed)
      ((change.state state).acceptAll (placed.map change.placed)) := by
  induction placed generalizing state with
  | nil => exact .ok state
  | cons next placed ih => exact (change.agrees_accept state next).bind ih

/-! ### The end of the input -/

theorem complete_state (state : State) :
    (change.state state).complete = change.state state.complete := by
  rcases state with ⟨_ | ⟨top | id, below⟩, forest, log⟩
  · exact change.reduceAll_state ⟨[], forest, log⟩
  · simp only [State.complete, stack_state, List.map_cons, item, token_placed, kind_token]
    rw [apply_ite change.state, ← reduceAll_state, ← reduceAll_state]
    rfl
  · exact change.reduceAll_state ⟨.term id :: below, forest, log⟩

theorem agrees_finish (state : State) (last : Placed) :
    Agrees SyntaxError.unlabelled change.tree (state.finish last).result
      ((change.state state).finish (change.placed last)).result := by
  simp only [State.finish, complete_state, stack_state, token_placed, kind_token, position_placed]
  rcases state.complete.stack with _ | ⟨top | root, _ | ⟨second, below⟩⟩
  case cons.term.nil =>
    simp only [List.map_cons, List.map_nil, item, apply_ite Outcome.result]
    exact .ite (.ok (⟨state.complete.forest, root⟩ : Tree)) (.error rfl)
  all_goals exact .error rfl

/-! ### Whole sequences -/

theorem from_map (start : Position) (tokens : List Token) :
    Placed.from start (tokens.map change.token) = (Placed.from start tokens).map change.placed := by
  induction tokens generalizing start with
  | nil => rfl
  | cons token tokens ih =>
      simp only [List.map_cons, Placed.from, ih]
      rfl

theorem all_map (tokens : List Token) :
    Placed.all (tokens.map change.token) = (Placed.all tokens).map change.placed :=
  change.from_map 1 tokens

theorem state_initial (count : Nat) : change.state (State.initial count) = State.initial count := by
  simp [Relabelling.state, State.initial, Relabelling.forest, record]

theorem agrees_parse (tokens : List Token) :
    Agrees SyntaxError.unlabelled change.tree (parse tokens)
      (parse (tokens.map change.token)) := by
  simp only [parse, parseTraced, all_map, List.getLast?_map, List.length_map]
  cases (Placed.all tokens).getLast? with
  | none => exact .error rfl
  | some last =>
      have hrun := change.agrees_acceptAll (State.initial tokens.length) (Placed.all tokens)
      rw [state_initial] at hrun
      simp only [Option.map_some]
      generalize (State.initial tokens.length).acceptAll (Placed.all tokens) = result,
        (State.initial tokens.length).acceptAll ((Placed.all tokens).map change.placed) =
          result' at hrun ⊢
      cases hrun with
      | ok state => exact change.agrees_finish state last
      | error heq => exact .error heq

/-! ### Validation -/

theorem agrees_step (previous : Option Kind) (opened : List Placed) (next : Placed) :
    Agrees SyntaxError.unlabelled (List.map change.placed) (Nesting.step previous opened next)
      (Nesting.step previous (opened.map change.placed) (change.placed next)) := by
  simp only [Nesting.step, token_placed, kind_token]
  cases next.token.kind with
  | closing =>
      cases opened with
      | nil => exact .error rfl
      | cons innermost outer =>
          simp only [List.map_cons, token_placed, pairsWith_token]
          exact .ite (.ok outer) (.error rfl)
  | opening => exact .ok (next :: opened)
  | assign | dyad | prefixOp | suffixOp | semicolon | term | var => exact .ok opened

theorem agrees_scan (previous : Option Kind) (opened placed : List Placed) :
    Agrees SyntaxError.unlabelled (List.map change.placed) (Nesting.scan previous opened placed)
      (Nesting.scan previous (opened.map change.placed) (placed.map change.placed)) := by
  induction placed generalizing previous opened with
  | nil => exact .ok opened
  | cons next placed ih => exact (change.agrees_step previous opened next).bind (ih _)

theorem agrees_check (tokens : List Token) :
    Agrees SyntaxError.unlabelled id (Nesting.check tokens)
      (Nesting.check (tokens.map change.token)) := by
  simp only [Nesting.check, all_map]
  apply (change.agrees_scan none [] (Placed.all tokens)).bind
  intro opened
  cases opened with
  | nil => exact .ok ()
  | cons innermost outer => exact .error rfl

theorem agrees_checkFirst (token : Token) :
    Agrees SyntaxError.unlabelled id (Validation.checkFirst token)
      (Validation.checkFirst (change.token token)) := by
  simp only [Validation.checkFirst, kind_token]
  exact .ite (.ok ()) (.error rfl)

theorem agrees_checkNeighbours (previous : Token) (placed : List Placed) :
    Agrees SyntaxError.unlabelled id (Validation.checkNeighbours previous placed)
      (Validation.checkNeighbours (change.token previous) (placed.map change.placed)) := by
  induction placed generalizing previous with
  | nil => exact .ok ()
  | cons next rest ih =>
      simp only [Validation.checkNeighbours, List.map_cons, token_placed, kind_token]
      exact .ite (ih next.token) (.error rfl)

theorem agrees_checkLast (last : Placed) :
    Agrees SyntaxError.unlabelled id (Validation.checkLast last)
      (Validation.checkLast (change.placed last)) := by
  simp only [Validation.checkLast, token_placed, kind_token]
  exact .ite (.ok ()) (.error rfl)

theorem agrees_validate (tokens : List Token) :
    Agrees SyntaxError.unlabelled id (validate tokens)
      (validate (tokens.map change.token)) := by
  simp only [validate, all_map]
  cases Placed.all tokens with
  | nil => exact .ok ()
  | cons first rest =>
      simp only [List.map_cons]
      apply (change.agrees_check tokens).bind
      intro _
      apply (change.agrees_checkFirst first.token).bind
      intro _
      apply (change.agrees_checkNeighbours first.token rest).bind
      intro _
      rw [List.getLastD_map]
      exact change.agrees_checkLast (rest.getLastD first)

end Relabelling

/-- Validating and parsing a sequence does not depend on the texts of its tokens, apart from which
    discriminators are equal. Whatever the labels are changed to, the outcomes are the same: the
    same tree with its labels changed, or the same error but for the labels that it cites. -/
theorem outcome_of_relabelling (change : Relabelling) (tokens : List Token) :
    Agrees SyntaxError.unlabelled id (validate tokens) (validate (tokens.map change.token)) ∧
      Agrees SyntaxError.unlabelled change.tree (parse tokens)
        (parse (tokens.map change.token)) :=
  ⟨change.agrees_validate tokens, change.agrees_parse tokens⟩

/-- Every token gets the label of a placeholder, and every discriminator a letter in front. -/
def Relabelling.ontoPlaceholder : Relabelling where
  label _ := "empty2"
  discriminator text := "x" ++ text
  injective _ _ h := (String.append_right_inj "x").1 h

/-- The label of an empty group is now that of every token. In the tree it becomes that of the nodes
    which the tokens have made, while the placeholder before the semi-colon keeps its own. Where the
    parentheses do not pair, the errors are alike but for the labels. -/
theorem outcome_of_labels_onto_placeholder :
    parse [⟨.opening, "b(", "("⟩, ⟨.semicolon, "s1", ""⟩, ⟨.var, "v1", ""⟩, ⟨.closing, "B(", "("⟩] =
      .ok ⟨⟨#[⟨.term, "empty1", [], some 2⟩, ⟨.var, "v1", [], some 2⟩,
        ⟨.semicolon, "s1", [0, 1], none⟩]⟩, 2⟩ ∧
    validate [⟨.opening, "empty2", "x("⟩, ⟨.semicolon, "empty2", "x"⟩, ⟨.var, "empty2", "x"⟩,
      ⟨.closing, "empty2", "x("⟩] = .ok () ∧
    parse [⟨.opening, "empty2", "x("⟩, ⟨.semicolon, "empty2", "x"⟩, ⟨.var, "empty2", "x"⟩,
        ⟨.closing, "empty2", "x("⟩] =
      .ok ⟨⟨#[⟨.term, "empty1", [], some 2⟩, ⟨.var, "empty2", [], some 2⟩,
        ⟨.semicolon, "empty2", [0, 1], none⟩]⟩, 2⟩ ∧
    ∃ error, parse [⟨.opening, "empty2", "x("⟩, ⟨.var, "empty2", "x"⟩, ⟨.closing, "empty2", "x]"⟩] =
        .error error ∧
      error.unlabelled = ⟨3, .parenthesisMismatch "" 1 "" 3⟩ := by
  have hparse : parse [⟨.opening, "b(", "("⟩, ⟨.semicolon, "s1", ""⟩, ⟨.var, "v1", ""⟩,
        ⟨.closing, "B(", "("⟩] =
      .ok ⟨⟨#[⟨.term, "empty1", [], some 2⟩, ⟨.var, "v1", [], some 2⟩,
        ⟨.semicolon, "s1", [0, 1], none⟩]⟩, 2⟩ := by
    decide +kernel
  have hvalidate : validate [⟨.opening, "b(", "("⟩, ⟨.semicolon, "s1", ""⟩, ⟨.var, "v1", ""⟩,
      ⟨.closing, "B(", "("⟩] = .ok () := by
    decide +kernel
  have hfailed : parse [⟨.opening, "b(", "("⟩, ⟨.var, "v1", ""⟩, ⟨.closing, "B]", "]"⟩] =
      .error ⟨3, .parenthesisMismatch "b(" 1 "B]" 3⟩ := by
    decide +kernel
  obtain ⟨hvalidated, hparsed⟩ := outcome_of_relabelling .ontoPlaceholder
    [⟨.opening, "b(", "("⟩, ⟨.semicolon, "s1", ""⟩, ⟨.var, "v1", ""⟩, ⟨.closing, "B(", "("⟩]
  obtain ⟨-, hrejected⟩ := outcome_of_relabelling .ontoPlaceholder
    [⟨.opening, "b(", "("⟩, ⟨.var, "v1", ""⟩, ⟨.closing, "B]", "]"⟩]
  have hgroup : [⟨.opening, "b(", "("⟩, ⟨.semicolon, "s1", ""⟩, ⟨.var, "v1", ""⟩,
        ⟨.closing, "B(", "("⟩].map Relabelling.ontoPlaceholder.token =
      [⟨.opening, "empty2", "x("⟩, ⟨.semicolon, "empty2", "x"⟩, ⟨.var, "empty2", "x"⟩,
        ⟨.closing, "empty2", "x("⟩] := by
    decide +kernel
  have hclash : [⟨.opening, "b(", "("⟩, ⟨.var, "v1", ""⟩, ⟨.closing, "B]", "]"⟩].map
        Relabelling.ontoPlaceholder.token =
      [⟨.opening, "empty2", "x("⟩, ⟨.var, "empty2", "x"⟩, ⟨.closing, "empty2", "x]"⟩] := by
    decide +kernel
  rw [hgroup, hvalidate] at hvalidated
  rw [hgroup, hparse] at hparsed
  rw [hclash, hfailed] at hrejected
  obtain ⟨error, herror, houtline⟩ := hrejected.of_error
  refine ⟨hparse, hvalidated.of_ok, hparsed.of_ok.trans ?_, error, herror, houtline.symm⟩
  decide +kernel

end OperatorTerms
