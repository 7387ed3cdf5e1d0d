/-
Module: OperatorTerms.Proofs.ParserAccess
Layer: Proofs
Purpose: The parser with every access checked. On its stack are indices of tokens and numbers of
  nodes; whatever it wants to know of an item it looks up in the sequence or in the forest, and to
  replace the items on top it subtracts their number from that of all items. A lookup of something
  that is not there and a difference below zero have no result here. While a sequence is parsed the
  items on the stack name tokens of the sequence and nodes of the forest, and a rule replaces no more
  items than it has seen, so the checked parser has a result on every sequence, and that of the
  parser.
Imports: OperatorTerms.Parse, OperatorTerms.Proofs.DiagnosticTruth, OperatorTerms.Proofs.TreeAccess
Main exports: Slot, Machine, Machine.replace?, Machine.reduct?, Machine.reduceAll?,
  Machine.accept?, Machine.finish?, parseTraced?, State.machine, State.Stored, State.Mirrors,
  State.Stored.reduct?_machine, State.Stored.accept, State.Stored.acceptAll,
  State.Stored.finish?_machine, parseTraced?_eq
-/
import OperatorTerms.Parse
import OperatorTerms.Proofs.DiagnosticTruth
import OperatorTerms.Proofs.TreeAccess

namespace OperatorTerms

/-- Adds a node on top of the given operands, which get to know their parent. -/
def Forest.addNode? (forest : Forest) (kind : Kind) (label : String) (operands : List NodeId) :
    Option Forest := do
  let nodes ← operands.foldlM
    (fun nodes operand =>
      if operand < nodes.size then
        some (nodes.modify operand fun node => { node with parent := some forest.size })
      else
        none)
    forest.nodes
  some ⟨nodes.push { kind, label, operands }⟩

/-- An item of the stack as it is stored. -/
inductive Slot where
  /-- The token with the index, which counts from zero. -/
  | token (index : Nat)
  | term (id : NodeId)
deriving DecidableEq

namespace Slot

def kind? (tokens : List Token) : Slot → Option Kind
  | token index => do
      let token ← tokens[index]?
      some token.kind
  | term _ => some .term

def element? (tokens : List Token) (forest : Forest) : Slot → Option Element
  | token index => do
      let token ← tokens[index]?
      some token.element
  | term id => do
      let node ← forest.nodes[id]?
      some ⟨.term, node.label⟩

def isTerm : Slot → Bool
  | token _ => false
  | term _ => true

end Slot

/-- The parser between two tokens, as it is stored. -/
structure Machine where
  /-- The items, top first. -/
  slots : List Slot
  forest : Forest
  /-- The records made so far, newest first. -/
  log : List Record

namespace Machine

def push (machine : Machine) (slot : Slot) : Machine :=
  { machine with slots := slot :: machine.slots }

def note (machine : Machine) (record : Record) : Machine :=
  { machine with log := record :: machine.log }

def fail {α : Type} (machine : Machine) (position : Position) (reason : Reason) :
    Except Failure α :=
  .error ⟨⟨position, reason⟩, machine.log⟩

/-- Puts an item in the place of the topmost ones, of which there are so many. -/
def replace? (machine : Machine) (count : Nat) (slot : Slot) : Option Machine := do
  let kept ← difference? machine.slots.length count
  some { machine with slots := slot :: machine.slots.drop (machine.slots.length - kept) }

/-- Builds a term and puts it in the place of the topmost items, of which there are so many. -/
def build? (machine : Machine) (kind : Kind) (label : String) (operands : List NodeId)
    (count : Nat) : Option Machine := do
  let forest ← machine.forest.addNode? kind label operands
  replace? { machine with forest } count (.term machine.forest.size)

/-- The kind of the item on top, if there is one. -/
def topKind? (tokens : List Token) (machine : Machine) : Option (Option Kind) :=
  match machine.slots with
  | [] => some none
  | top :: _ => do
      let kind ← top.kind? tokens
      some (some kind)

/-! ### Rules -/

/-- What a rule makes of the machine, if it fits. -/
def reductIf? (fits : Bool) (reduced? : Option Machine) : Option (Option Machine) :=
  if fits then reduced?.map some else some none

/-- What the rule makes of the top of the stack, if the rule fits. -/
def reduct? (tokens : List Token) (rule : Rule) (machine : Machine) : Option (Option Machine) :=
  match rule, machine.slots with
  | .infixOperator, .term right :: .token operator :: .term left :: _ => do
      let operator ← tokens[operator]?
      reductIf? operator.kind.isInfix <|
        (machine.note (.reduceInfix operator.label)).build? operator.kind operator.label
          [left, right] 3
  | .group, .token closed :: .term inner :: .token opened :: _ => do
      let opened ← tokens[opened]?
      let closed ← tokens[closed]?
      reductIf? (opened.pairsWith closed) <|
        (machine.note (.reduceGroup opened.label closed.label)).replace? 3 (.term inner)
  | .emptyGroup, .token closed :: .token opened :: _ => do
      let opened ← tokens[opened]?
      let closed ← tokens[closed]?
      reductIf? (opened.pairsWith closed) <|
        (machine.note (.reduceEmptyGroup opened.label closed.label)).build? .term
          Term.emptyGroupLabel [] 2
  | .redundantSemicolon, .token top :: .token semicolon :: _ => do
      let semicolon ← tokens[semicolon]?
      let closed ← tokens[top]?
      reductIf? (semicolon.kind == .semicolon && closed.kind == .closing) <|
        (machine.note (.dropSemicolon semicolon.label closed.label)).replace? 2 (.token top)
  | .unaryOperator, .term operand :: .token operator :: _ => do
      let operator ← tokens[operator]?
      reductIf? operator.kind.isUnary <|
        (machine.note (.reduceUnary operator.label)).build? operator.kind operator.label
          [operand] 2
  | _, _ => some none

/-- What the first of the rules that fits makes of the top of the stack. -/
def reduceWith? (tokens : List Token) : List Rule → Machine → Option (Option Machine)
  | [], _ => some none
  | rule :: rules, machine => do
      let reduct ← machine.reduct? tokens rule
      match reduct with
      | some reduced => some (some reduced)
      | none => reduceWith? tokens rules machine

/-- What is replaced by one item leaves fewer items, if it is more than one. -/
theorem length_lt_of_replace? {machine reduced : Machine} {count : Nat} {slot : Slot}
    (h : machine.replace? count slot = some reduced) (hcount : 1 < count) :
    reduced.slots.length < machine.slots.length := by
  obtain ⟨kept, hkept, hreduced⟩ := Option.bind_eq_some_iff.1 h
  have hle : count ≤ machine.slots.length := by
    by_contra hlt
    rw [difference?, if_neg hlt] at hkept
    contradiction
  rw [difference?_of_le hle] at hkept
  cases hkept
  cases hreduced
  rw [Nat.sub_sub_self hle, List.length_cons, List.length_drop]
  omega

theorem length_lt_of_build? {machine reduced : Machine} {kind : Kind} {label : String}
    {operands : List NodeId} {count : Nat}
    (h : machine.build? kind label operands count = some reduced) (hcount : 1 < count) :
    reduced.slots.length < machine.slots.length := by
  obtain ⟨forest, -, hreplace⟩ := Option.bind_eq_some_iff.1 h
  exact (length_lt_of_replace? hreplace hcount :)

theorem of_reductIf? {fits : Bool} {reduced? : Option Machine} {reduced : Machine}
    (h : reductIf? fits reduced? = some (some reduced)) : reduced? = some reduced := by
  rw [reductIf?] at h
  split at h
  · obtain ⟨_, hreduced, heq⟩ := Option.map_eq_some_iff.1 h
    exact Option.some.inj heq ▸ hreduced
  · cases h

/-- Every rule leaves fewer items than it found. -/
theorem length_lt_of_reduct? {tokens : List Token} {rule : Rule} {machine reduced : Machine}
    (h : machine.reduct? tokens rule = some (some reduced)) :
    reduced.slots.length < machine.slots.length := by
  unfold reduct? at h
  split at h
  · obtain ⟨operator, -, h⟩ := Option.bind_eq_some_iff.1 h
    exact (length_lt_of_build? (of_reductIf? h) (by decide) :)
  · obtain ⟨opened, -, h⟩ := Option.bind_eq_some_iff.1 h
    obtain ⟨closed, -, h⟩ := Option.bind_eq_some_iff.1 h
    exact (length_lt_of_replace? (of_reductIf? h) (by decide) :)
  · obtain ⟨opened, -, h⟩ := Option.bind_eq_some_iff.1 h
    obtain ⟨closed, -, h⟩ := Option.bind_eq_some_iff.1 h
    exact (length_lt_of_build? (of_reductIf? h) (by decide) :)
  · obtain ⟨semicolon, -, h⟩ := Option.bind_eq_some_iff.1 h
    obtain ⟨closed, -, h⟩ := Option.bind_eq_some_iff.1 h
    exact (length_lt_of_replace? (of_reductIf? h) (by decide) :)
  · obtain ⟨operator, -, h⟩ := Option.bind_eq_some_iff.1 h
    exact (length_lt_of_build? (of_reductIf? h) (by decide) :)
  · cases h

theorem length_lt_of_reduceWith? {tokens : List Token} {rules : List Rule}
    {machine reduced : Machine}
    (h : machine.reduceWith? tokens rules = some (some reduced)) :
    reduced.slots.length < machine.slots.length := by
  induction rules with
  | nil => cases h
  | cons rule rules ih =>
      obtain ⟨reduct, hreduct, h⟩ := Option.bind_eq_some_iff.1 h
      cases reduct with
      | none => exact ih h
      | some _ =>
          cases h
          exact length_lt_of_reduct? hreduct

/-- Applies rules to the top of the stack until none fits. -/
def reduceAll? (tokens : List Token) (machine : Machine) : Option Machine :=
  match _ : machine.reduceWith? tokens Rule.all with
  | none => none
  | some none => some machine
  | some (some reduced) => reduced.reduceAll? tokens
termination_by machine.slots.length
decreasing_by exact length_lt_of_reduceWith? ‹_›

/-- Applies the prefix operator directly below the term on top, if there is one. -/
def prefixReduct? (tokens : List Token) (machine : Machine) : Option (Option Machine) :=
  match machine.slots with
  | .term _ :: .token operator :: _ => do
      let operator ← tokens[operator]?
      if operator.kind == .prefixOp then machine.reduct? tokens .unaryOperator else some none
  | _ => some none

theorem length_lt_of_prefixReduct? {tokens : List Token} {machine reduced : Machine}
    (h : machine.prefixReduct? tokens = some (some reduced)) :
    reduced.slots.length < machine.slots.length := by
  unfold prefixReduct? at h
  split at h
  · obtain ⟨operator, -, h⟩ := Option.bind_eq_some_iff.1 h
    split at h
    · exact length_lt_of_reduct? h
    · cases h
  · cases h

/-- Applies the prefix operators directly below the term on top, the nearest first. -/
def reducePrefixes? (tokens : List Token) (machine : Machine) : Option Machine :=
  match _ : machine.prefixReduct? tokens with
  | none => none
  | some none => some machine
  | some (some reduced) => reduced.reducePrefixes? tokens
termination_by machine.slots.length
decreasing_by exact length_lt_of_prefixReduct? ‹_›

/-! ### Tokens -/

def reject? {α : Type} (tokens : List Token) (machine : Machine) (index : Nat) :
    Option (Except Failure α) := do
  let token ← tokens[index]?
  match machine.slots with
  | [] => some (machine.fail (index + 1) (.unexpectedStart token.element Grammar.first))
  | top :: _ =>
      let previous ← top.element? tokens machine.forest
      let kind ← top.kind? tokens
      some (machine.fail (index + 1)
        (.unexpectedElement token.element previous (index + 1) (Grammar.next kind)))

/-- A closing parenthesis is unexpected above the given items. -/
def rejectStray? {α : Type} (tokens : List Token) (machine : Machine) (index : Nat)
    (below : List Slot) : Option (Except Failure α) := do
  let closed ← tokens[index]?
  let previous ← topKind? tokens { machine with slots := below }
  some (machine.fail (index + 1)
    (.unexpectedClosing closed.label (index + 1) (Grammar.expectedAfter previous)))

/-- A closing parenthesis does not pair with the token of the given index, if that opens a group. -/
def rejectAgainst? {α : Type} (tokens : List Token) (machine : Machine) (index : Nat)
    (below : List Slot) (opened : Nat) : Option (Except Failure α) := do
  let token ← tokens[opened]?
  if token.kind == .opening then
    let closed ← tokens[index]?
    some (machine.fail (index + 1)
      (.parenthesisMismatch token.label (opened + 1) closed.label (index + 1)))
  else
    machine.rejectStray? tokens index below

def rejectClosing? {α : Type} (tokens : List Token) (machine : Machine) (index : Nat)
    (below : List Slot) : Option (Except Failure α) :=
  match below with
  | .term _ :: .token opened :: _ => machine.rejectAgainst? tokens index below opened
  | .token opened :: _ => machine.rejectAgainst? tokens index below opened
  | _ => machine.rejectStray? tokens index below

def acceptClosing? (tokens : List Token) (machine : Machine) (index : Nat) :
    Option (Except Failure Machine) := do
  let machine ← machine.reduceAll? tokens
  let machine ← (machine.push (.token index)).reduceAll? tokens
  match machine.slots with
  | .token top :: below =>
      if top = index then machine.rejectClosing? tokens index below else some (.ok machine)
  | _ => some (.ok machine)

def acceptSuffix? (tokens : List Token) (machine : Machine) (index : Nat) :
    Option (Except Failure Machine) :=
  match machine.slots with
  | .term operand :: _ => do
      let machine ← machine.replace? 1 (.token index)
      let machine := machine.push (.term operand)
      let reduct ← machine.reduct? tokens .unaryOperator
      some (.ok (reduct.getD machine))
  | _ => machine.reject? tokens index

/-- Puts a placeholder on the stack unless there is a term on top. -/
def completeStatement? (machine : Machine) : Option Machine :=
  if machine.slots.head?.any Slot.isTerm then
    some machine
  else
    machine.build? .term Term.emptyStatementLabel [] 0

def acceptSemicolon? (tokens : List Token) (machine : Machine) (index : Nat) :
    Option (Except Failure Machine) := do
  let machine ← machine.completeStatement?
  let machine ← machine.reduceAll? tokens
  some (.ok (machine.push (.token index)))

def acceptVariable? (tokens : List Token) (machine : Machine) (index : Nat) :
    Option (Except Failure Machine) := do
  let token ← tokens[index]?
  let machine ← machine.build? token.kind token.label [] 0
  let machine ← machine.reducePrefixes? tokens
  some (.ok machine)

/-- Takes the token with the index. -/
def accept? (tokens : List Token) (machine : Machine) (index : Nat) :
    Option (Except Failure Machine) := do
  let previous ← machine.topKind? tokens
  let token ← tokens[index]?
  if (Grammar.expectedAfter previous).contains token.kind then
    let machine := machine.note (.shift token.label machine.slots.length)
    match token.kind with
    | .assign | .dyad | .opening | .prefixOp => some (.ok (machine.push (.token index)))
    | .closing => machine.acceptClosing? tokens index
    | .suffixOp => machine.acceptSuffix? tokens index
    | .semicolon => machine.acceptSemicolon? tokens index
    | .var => machine.acceptVariable? tokens index
    | .term => machine.reject? tokens index
  else
    machine.reject? tokens index

/-- Takes the tokens with the given indices, up to the first that is rejected. -/
def acceptAll? (tokens : List Token) (machine : Machine) :
    List Nat → Option (Except Failure Machine)
  | [] => some (.ok machine)
  | index :: rest => do
      let accepted ← machine.accept? tokens index
      match accepted with
      | .error failure => some (.error failure)
      | .ok machine => machine.acceptAll? tokens rest

/-! ### Whole sequences -/

def complete? (tokens : List Token) (machine : Machine) : Option Machine :=
  match machine.slots with
  | .token top :: below => do
      let top ← tokens[top]?
      if top.kind == .semicolon then
        reduceAll? tokens { machine with slots := below }
      else
        machine.reduceAll? tokens
  | _ => machine.reduceAll? tokens

def finish? (tokens : List Token) (machine : Machine) (index : Nat) : Option (Outcome Tree) := do
  let last ← tokens[index]?
  let machine ← machine.complete? tokens
  match machine.slots with
  | [.term root] =>
      if Grammar.last.contains last.kind then
        let shown ← machine.forest.display? root
        some ⟨(machine.note (.parsed shown)).log.reverse, .ok ⟨machine.forest, root⟩⟩
      else
        some ⟨machine.log.reverse,
          .error ⟨index + 1, .unexpectedEnd last.element (Grammar.next last.kind)⟩⟩
  | slots =>
      some ⟨(machine.note (.unreduced slots.length)).log.reverse,
        .error ⟨index + 1, .incomplete last.element (Grammar.next last.kind)⟩⟩

end Machine

/-- Parses a sequence with every access checked. -/
def parseTraced? (tokens : List Token) : Option (Outcome Tree) :=
  let start : Machine := ⟨[], {}, [.parsing tokens.length]⟩
  match difference? tokens.length 1 with
  | none => some ⟨start.log, .error ⟨1, .empty Grammar.first⟩⟩
  | some last => do
      let accepted ← start.acceptAll? tokens (List.range tokens.length)
      match accepted with
      | .error failure => some ⟨failure.log.reverse, .error failure.error⟩
      | .ok machine => machine.finish? tokens last

/-! ### What is stored -/

/-- The item as it is stored. -/
def Item.slot : Item → Slot
  | token placed => .token (placed.position - 1)
  | term id => .term id

/-- The item names something that is there: a token of the sequence or a node of the forest. -/
def Item.Stored (tokens : List Token) (forest : Forest) : Item → Prop
  | token placed => StandsAt tokens placed.position placed.token
  | term id => id < forest.size

namespace State

/-- The state as it is stored. -/
def machine (state : State) : Machine := ⟨state.stack.map Item.slot, state.forest, state.log⟩

/-- All that the state names is there. -/
structure Stored (tokens : List Token) (state : State) : Prop where
  items : ∀ item ∈ state.stack, item.Stored tokens state.forest
  older : state.forest.Older

/-- The checked step has the result of the step, and after it everything that is named is there. -/
inductive Mirrors (tokens : List Token) :
    Option (Except Failure Machine) → Except Failure State → Prop where
  | ok {state : State} : state.Stored tokens → Mirrors tokens (some (.ok state.machine)) (.ok state)
  | error {failure : Failure} : Mirrors tokens (some (.error failure)) (.error failure)

end State

variable {tokens : List Token} {state reduced : State} {next : Placed} {items below : List Item}
  {item : Item} {forest larger : Forest} {kind : Kind} {label : String} {operands : List NodeId}
  {log : List Record}

theorem Forest.addNode?_eq (h : ∀ operand ∈ operands, operand < forest.size) :
    forest.addNode? kind label operands = some (forest.apply kind label operands) := by
  have hadopt : ∀ nodes : Array Node, nodes.size = forest.size →
      operands.foldlM
        (fun nodes operand =>
          if operand < nodes.size then
            some (nodes.modify operand fun node => { node with parent := some forest.size })
          else
            none)
        nodes =
      some (operands.foldl
        (fun nodes operand =>
          nodes.modify operand fun node => { node with parent := some forest.size })
        nodes) := by
    induction operands with
    | nil => exact fun _ _ => rfl
    | cons operand rest ih =>
        obtain ⟨hoperand, hrest⟩ := List.forall_mem_cons.1 h
        intro nodes hsize
        rw [List.foldlM_cons, if_pos (hsize.symm ▸ hoperand)]
        exact ih hrest _ (by rw [Array.size_modify, hsize])
  rw [addNode?, hadopt forest.nodes rfl]
  rfl

namespace Machine

variable {machine : Machine} {count : Nat}

/-- The subtraction succeeds if there are as many items as are to be replaced. -/
theorem replace?_eq (h : count ≤ machine.slots.length) (slot : Slot) :
    machine.replace? count slot =
      some { machine with slots := slot :: machine.slots.drop count } := by
  rw [replace?, difference?_of_le h, Option.bind_eq_bind, Option.bind_some, Nat.sub_sub_self h]

theorem build?_eq (h : count ≤ machine.slots.length)
    (hoperands : ∀ operand ∈ operands, operand < machine.forest.size) :
    machine.build? kind label operands count =
      some ⟨.term machine.forest.size :: machine.slots.drop count,
        machine.forest.apply kind label operands, machine.log⟩ := by
  rw [build?, Forest.addNode?_eq hoperands, Option.bind_eq_bind, Option.bind_some]
  exact @replace?_eq ⟨machine.slots, machine.forest.apply kind label operands, machine.log⟩ count h _

theorem reduceAll?_of_none (h : machine.reduceWith? tokens Rule.all = some none) :
    machine.reduceAll? tokens = some machine := by
  rw [reduceAll?]
  split <;> simp_all

theorem reduceAll?_of_some {reduced : Machine}
    (h : machine.reduceWith? tokens Rule.all = some (some reduced)) :
    machine.reduceAll? tokens = reduced.reduceAll? tokens := by
  rw [reduceAll?]
  split <;> simp_all

theorem reducePrefixes?_of_none (h : machine.prefixReduct? tokens = some none) :
    machine.reducePrefixes? tokens = some machine := by
  rw [reducePrefixes?]
  split <;> simp_all

theorem reducePrefixes?_of_some {reduced : Machine}
    (h : machine.prefixReduct? tokens = some (some reduced)) :
    machine.reducePrefixes? tokens = reduced.reducePrefixes? tokens := by
  rw [reducePrefixes?]
  split <;> simp_all

end Machine

/-! ### Rules -/

theorem Item.Stored.mono (h : item.Stored tokens forest) (hle : forest.size ≤ larger.size) :
    item.Stored tokens larger := by
  cases item with
  | token placed => exact h
  | term id => exact Nat.lt_of_lt_of_le h hle

namespace State

namespace Stored

theorem getElem?_token (h : state.Stored tokens) (placed : Placed)
    (hmem : .token placed ∈ state.stack) : tokens[placed.position - 1]? = some placed.token :=
  (h.items (.token placed) hmem).2

theorem lt_size {id : NodeId} (h : state.Stored tokens) (hmem : .term id ∈ state.stack) :
    id < state.forest.size :=
  h.items (.term id) hmem

/-- A rule finds what it looks for on top of the stack, and replaces as many items as it has seen. -/
theorem reduct?_machine (h : state.Stored tokens) (rule : Rule) :
    state.machine.reduct? tokens rule = some ((rule.reduct? state).map machine) := by
  rcases state with ⟨stack, forest, log⟩
  cases rule with
  | infixOperator =>
      rcases stack with _ | ⟨_ | right, _ | ⟨operator | _, _ | ⟨_ | left, below⟩⟩⟩
      case cons.term.cons.token.cons.term =>
        have hoperator := h.getElem?_token operator (by simp)
        have hoperands : ∀ operand ∈ [left, right], operand < forest.size := by
          simp [h.lt_size]
        simp only [machine, List.map_cons, Item.slot, Machine.reduct?, Rule.reduct?, hoperator,
          Option.bind_eq_bind, Option.bind_some]
        rw [Machine.build?_eq (Nat.le_add_left 3 _) hoperands, Machine.reductIf?]
        split <;> rfl
      all_goals rfl
  | group =>
      rcases stack with _ | ⟨closed | _, _ | ⟨_ | inner, _ | ⟨opened | _, below⟩⟩⟩
      case cons.token.cons.term.cons.token =>
        have hopened := h.getElem?_token opened (by simp)
        have hclosed := h.getElem?_token closed (by simp)
        simp only [machine, List.map_cons, Item.slot, Machine.reduct?, Rule.reduct?, hopened,
          hclosed, Option.bind_eq_bind, Option.bind_some]
        rw [Machine.replace?_eq (Nat.le_add_left 3 _), Machine.reductIf?]
        split <;> rfl
      all_goals rfl
  | emptyGroup =>
      rcases stack with _ | ⟨closed | _, _ | ⟨opened | _, below⟩⟩
      case cons.token.cons.token =>
        have hopened := h.getElem?_token opened (by simp)
        have hclosed := h.getElem?_token closed (by simp)
        simp only [machine, List.map_cons, Item.slot, Machine.reduct?, Rule.reduct?, hopened,
          hclosed, Option.bind_eq_bind, Option.bind_some]
        rw [Machine.build?_eq (Nat.le_add_left 2 _) (by simp), Machine.reductIf?]
        split <;> rfl
      all_goals rfl
  | redundantSemicolon =>
      rcases stack with _ | ⟨closed | _, _ | ⟨semicolon | _, below⟩⟩
      case cons.token.cons.token =>
        have hsemicolon := h.getElem?_token semicolon (by simp)
        have hclosed := h.getElem?_token closed (by simp)
        simp only [machine, List.map_cons, Item.slot, Machine.reduct?, Rule.reduct?, hsemicolon,
          hclosed, Option.bind_eq_bind, Option.bind_some]
        rw [Machine.replace?_eq (Nat.le_add_left 2 _), Machine.reductIf?]
        split <;> rfl
      all_goals rfl
  | unaryOperator =>
      rcases stack with _ | ⟨_ | operand, _ | ⟨operator | _, below⟩⟩
      case cons.term.cons.token =>
        have hoperator := h.getElem?_token operator (by simp)
        have hoperands : ∀ other ∈ [operand], other < forest.size := by
          simp [h.lt_size]
        simp only [machine, List.map_cons, Item.slot, Machine.reduct?, Rule.reduct?, hoperator,
          Option.bind_eq_bind, Option.bind_some]
        rw [Machine.build?_eq (Nat.le_add_left 2 _) hoperands, Machine.reductIf?]
        split <;> rfl
      all_goals rfl

/-- A node on top of stored ones takes the place of some items. -/
theorem build (h : Stored tokens ⟨items, forest, log⟩) {log' : List Record}
    (hbelow : ∀ item ∈ below, item ∈ items)
    (hoperands : ∀ operand ∈ operands, operand < forest.size) :
    Stored tokens ⟨.term forest.size :: below, forest.apply kind label operands, log'⟩ := by
  refine ⟨List.forall_mem_cons.2 ⟨?_, ?_⟩, h.older.apply hoperands⟩
  · rw [Item.Stored, Forest.size_apply]
    exact Nat.lt_succ_self _
  · intro item hmem
    refine (h.items item (hbelow item hmem)).mono ?_
    rw [Forest.size_apply]
    exact Nat.le_succ _

/-- Items may be taken away and change places. -/
theorem restack (h : Stored tokens ⟨items, forest, log⟩) {log' : List Record}
    (hbelow : ∀ item ∈ below, item ∈ items) : Stored tokens ⟨below, forest, log'⟩ :=
  ⟨fun item hmem => h.items item (hbelow item hmem), h.older⟩

theorem reduces (h : state.Stored tokens) (hreduces : Reduces state reduced) :
    reduced.Stored tokens := by
  cases hreduces with
  | infixOperator _ => exact h.build (by simp +contextual) (by simp [h.lt_size])
  | group _ => exact h.restack (by simp +contextual)
  | emptyGroup _ => exact h.build (by simp +contextual) (by simp)
  | redundantSemicolon _ => exact h.restack (by simp +contextual)
  | unaryOperator _ => exact h.build (by simp +contextual) (by simp [h.lt_size])

theorem reduceWith?_machine (h : state.Stored tokens) (rules : List Rule) :
    state.machine.reduceWith? tokens rules = some ((state.reduceWith? rules).map machine) := by
  induction rules with
  | nil => rfl
  | cons rule rules ih =>
      rw [Machine.reduceWith?, h.reduct?_machine, State.reduceWith?, List.findSome?_cons,
        Option.bind_eq_bind, Option.bind_some]
      cases rule.reduct? state with
      | none => exact ih
      | some reduced => rfl

theorem of_reduceWith? {rules : List Rule} (h : state.Stored tokens)
    (hreduced : state.reduceWith? rules = some reduced) : reduced.Stored tokens := by
  obtain ⟨rule, -, hreduct⟩ := List.exists_of_findSome?_eq_some hreduced
  exact h.reduces (reduces_of_reduct? hreduct)

theorem reduceAll (h : state.Stored tokens) : state.reduceAll.Stored tokens := by
  unfold State.reduceAll
  fun_induction State.reduceAllWith Rule.all state with
  | case1 state _ => exact h
  | case2 state reduced hreduced ih => exact ih (h.of_reduceWith? hreduced)

theorem reduceAll?_machine (h : state.Stored tokens) :
    state.machine.reduceAll? tokens = some state.reduceAll.machine := by
  unfold State.reduceAll
  fun_induction State.reduceAllWith Rule.all state with
  | case1 state hnone =>
      have hchecked := h.reduceWith?_machine Rule.all
      rw [hnone] at hchecked
      rw [Machine.reduceAll?_of_none hchecked]
  | case2 state reduced hreduced ih =>
      have hchecked := h.reduceWith?_machine Rule.all
      rw [hreduced] at hchecked
      rw [Machine.reduceAll?_of_some hchecked]
      exact ih (h.of_reduceWith? hreduced)

theorem of_prefixReduct? (h : state.Stored tokens) (hreduced : state.prefixReduct? = some reduced) :
    reduced.Stored tokens :=
  h.reduces (reduces_of_reduct? (reduct?_of_prefixReduct? hreduced))

theorem reducePrefixes (h : state.Stored tokens) : state.reducePrefixes.Stored tokens := by
  fun_induction State.reducePrefixes state with
  | case1 state _ => exact h
  | case2 state reduced hreduced ih => exact ih (h.of_prefixReduct? hreduced)

theorem prefixReduct?_machine (h : state.Stored tokens) :
    state.machine.prefixReduct? tokens = some (state.prefixReduct?.map machine) := by
  have hreduct := h.reduct?_machine .unaryOperator
  rcases state with ⟨stack, forest, log⟩
  rcases stack with _ | ⟨_ | operand, _ | ⟨operator | _, below⟩⟩
  case cons.term.cons.token =>
    have hoperator := h.getElem?_token operator (by simp)
    simp only [machine, List.map_cons, Item.slot] at hreduct
    simp only [machine, List.map_cons, Item.slot, Machine.prefixReduct?, State.prefixReduct?,
      hoperator, hreduct, Option.bind_eq_bind, Option.bind_some]
    split <;> rfl
  all_goals rfl

theorem reducePrefixes?_machine (h : state.Stored tokens) :
    state.machine.reducePrefixes? tokens = some state.reducePrefixes.machine := by
  fun_induction State.reducePrefixes state with
  | case1 state hnone =>
      have hchecked := h.prefixReduct?_machine
      rw [hnone] at hchecked
      rw [Machine.reducePrefixes?_of_none hchecked]
  | case2 state reduced hreduced ih =>
      have hchecked := h.prefixReduct?_machine
      rw [hreduced] at hchecked
      rw [Machine.reducePrefixes?_of_some hchecked]
      exact ih (h.of_prefixReduct? hreduced)

end Stored

/-! ### Tokens -/

end State

namespace Item.Stored

theorem kind?_slot (h : item.Stored tokens forest) : item.slot.kind? tokens = some item.kind := by
  cases item with
  | term id => rfl
  | token placed =>
      rw [slot, Slot.kind?, h.2]
      rfl

theorem element?_slot (h : item.Stored tokens forest) :
    item.slot.element? tokens forest = some (item.element forest) := by
  cases item with
  | term id =>
      rw [slot, Slot.element?, Forest.getElem?_nodes h]
      rfl
  | token placed =>
      rw [slot, Slot.element?, h.2]
      rfl

end Item.Stored

theorem Item.isTerm_slot (item : Item) : item.slot.isTerm = item.isTerm := by
  cases item <;> rfl

namespace State

theorem topKind?_machine (h : state.Stored tokens) :
    state.machine.topKind? tokens = some state.topKind? := by
  rcases state with ⟨stack, forest, log⟩
  cases stack with
  | nil => rfl
  | cons top below =>
      simp only [Machine.topKind?, machine, List.map_cons, (h.items top List.mem_cons_self).kind?_slot]
      rfl

/-- Positions count from one and indices from zero. -/
theorem index_add_one (h : StandsAt tokens next.position next.token) :
    next.position - 1 + 1 = next.position :=
  Nat.sub_add_cancel h.1

theorem Stored.reject (h : state.Stored tokens)
    (hnext : StandsAt tokens next.position next.token) :
    Mirrors tokens (state.machine.reject? tokens (next.position - 1)) (state.reject next) := by
  rw [Machine.reject?, hnext.2, State.reject, index_add_one hnext, Option.bind_eq_bind,
    Option.bind_some]
  rcases state with ⟨stack, forest, log⟩
  cases stack with
  | nil => exact .error
  | cons top below =>
      have htop := h.items top List.mem_cons_self
      simp only [machine, List.map_cons, htop.kind?_slot, htop.element?_slot, Option.bind_eq_bind,
        Option.bind_some]
      exact .error

/-- The tokens of two positions are the same if the indices are. -/
theorem eq_of_index_eq {placed : Placed} (h : StandsAt tokens placed.position placed.token)
    (hnext : StandsAt tokens next.position next.token)
    (hindex : placed.position - 1 = next.position - 1) : placed = next := by
  have hposition : placed.position = next.position := by
    rw [← index_add_one h, hindex, index_add_one hnext]
  have htoken : some placed.token = some next.token := by
    rw [← h.2, ← hnext.2, hindex]
  cases placed
  cases next
  simp_all

theorem Stored.rejectStray (h : state.Stored tokens)
    (hnext : StandsAt tokens next.position next.token) (hbelow : ∀ item ∈ below, item ∈ state.stack) :
    Mirrors tokens
      (state.machine.rejectStray? tokens (next.position - 1) (below.map Item.slot))
      (state.fail next.position (.unexpectedClosing next.token.label next.position
        (Grammar.expectedAfter (below.head?.map Item.kind)))) := by
  have htop : Machine.topKind? tokens ⟨below.map Item.slot, state.forest, state.log⟩ =
      some (below.head?.map Item.kind) :=
    @topKind?_machine tokens ⟨below, state.forest, state.log⟩ (h.restack hbelow)
  simp only [Machine.rejectStray?, machine, hnext.2, htop, Option.bind_eq_bind, Option.bind_some,
    index_add_one hnext]
  exact .error

/-- Whether a token opens a group or not, the closing parenthesis above it is rejected. -/
theorem Stored.rejectAgainst {opened : Placed} (h : state.Stored tokens)
    (hnext : StandsAt tokens next.position next.token) (hbelow : ∀ item ∈ below, item ∈ state.stack)
    (hopened : StandsAt tokens opened.position opened.token) :
    Mirrors tokens
      (state.machine.rejectAgainst? tokens (next.position - 1) (below.map Item.slot)
        (opened.position - 1))
      (if opened.token.kind == .opening then
        state.fail next.position (.parenthesisMismatch opened.token.label opened.position
          next.token.label next.position)
      else
        state.fail next.position (.unexpectedClosing next.token.label next.position
          (Grammar.expectedAfter (below.head?.map Item.kind)))) := by
  simp only [Machine.rejectAgainst?, hopened.2, Option.bind_eq_bind, Option.bind_some]
  split
  · simp only [hnext.2, Option.bind_some, index_add_one hnext, index_add_one hopened]
    exact .error
  · exact h.rejectStray hnext hbelow

theorem Stored.rejectClosing (h : state.Stored tokens)
    (hnext : StandsAt tokens next.position next.token) (hbelow : ∀ item ∈ below, item ∈ state.stack) :
    Mirrors tokens
      (state.machine.rejectClosing? tokens (next.position - 1) (below.map Item.slot))
      (state.rejectClosing next below) := by
  have hopened : ∀ opened : Placed, .token opened ∈ below →
      StandsAt tokens opened.position opened.token := fun opened hmem =>
    h.items (.token opened) (hbelow _ hmem)
  rcases below with _ | ⟨opened | _, rest⟩
  case nil => exact h.rejectStray hnext hbelow
  case cons.token => exact h.rejectAgainst hnext hbelow (hopened _ (by simp))
  case cons.term =>
    rcases rest with _ | ⟨opened | _, rest⟩
    case cons.token => exact h.rejectAgainst hnext hbelow (hopened _ (by simp))
    all_goals exact h.rejectStray hnext hbelow

theorem Stored.push (h : state.Stored tokens)
    (hnext : StandsAt tokens next.position next.token) :
    (state.push (.token next)).Stored tokens :=
  ⟨List.forall_mem_cons.2 ⟨hnext, h.items⟩, h.older⟩

theorem Stored.note (h : state.Stored tokens) (record : Record) :
    (state.note record).Stored tokens :=
  ⟨h.items, h.older⟩

theorem Stored.acceptClosing (h : state.Stored tokens)
    (hnext : StandsAt tokens next.position next.token) :
    Mirrors tokens (state.machine.acceptClosing? tokens (next.position - 1))
      (state.acceptClosing next) := by
  have hpushed : (state.reduceAll.push (.token next)).Stored tokens := h.reduceAll.push hnext
  have hmachine : state.reduceAll.machine.push (.token (next.position - 1)) =
      (state.reduceAll.push (.token next)).machine := rfl
  rw [Machine.acceptClosing?, h.reduceAll?_machine, Option.bind_eq_bind, Option.bind_some, hmachine,
    hpushed.reduceAll?_machine, State.acceptClosing, Option.bind_some]
  have hsettled := hpushed.reduceAll
  generalize (state.reduceAll.push (.token next)).reduceAll = settled at hsettled ⊢
  rcases settled with ⟨stack, forest, log⟩
  rcases stack with _ | ⟨top | _, below⟩
  case cons.token =>
    have htop := hsettled.items (.token top) List.mem_cons_self
    simp only [machine, List.map_cons, Item.slot]
    by_cases heq : top = next
    · subst heq
      simp only [if_true]
      exact hsettled.rejectClosing htop (by simp +contextual)
    · have hindex : top.position - 1 ≠ next.position - 1 := fun hindex =>
        heq (eq_of_index_eq htop hnext hindex)
      rw [if_neg heq, if_neg hindex]
      exact .ok hsettled
  all_goals exact .ok hsettled

theorem Stored.acceptSuffix (h : state.Stored tokens)
    (hnext : StandsAt tokens next.position next.token) :
    Mirrors tokens (state.machine.acceptSuffix? tokens (next.position - 1))
      (state.acceptSuffix next) := by
  rcases state with ⟨stack, forest, log⟩
  rcases stack with _ | ⟨_ | operand, below⟩
  case cons.term =>
    obtain ⟨hoperand, hbelow⟩ := List.forall_mem_cons.1 h.items
    have htucked : Stored tokens ⟨.term operand :: .token next :: below, forest, log⟩ :=
      ⟨List.forall_mem_cons.2 ⟨hoperand, List.forall_mem_cons.2 ⟨hnext, hbelow⟩⟩, h.older⟩
    have hreplace : Machine.replace? ⟨(.term operand :: below).map Item.slot, forest, log⟩ 1
        (.token (next.position - 1)) =
        some ⟨.token (next.position - 1) :: below.map Item.slot, forest, log⟩ :=
      Machine.replace?_eq (Nat.le_add_left 1 _) _
    have hreduct := htucked.reduct?_machine .unaryOperator
    simp only [machine, List.map_cons, Item.slot] at hreplace hreduct
    simp only [Machine.acceptSuffix?, State.acceptSuffix, machine, List.map_cons, Item.slot,
      hreplace, Machine.push, hreduct, Option.bind_eq_bind, Option.bind_some]
    cases hreduced : Rule.unaryOperator.reduct? _ with
    | none => exact .ok htucked
    | some reduced => exact .ok (htucked.reduces (reduces_of_reduct? hreduced))
  all_goals exact h.reject hnext

/-- A leaf is built without looking at the stack. -/
theorem Stored.buildLeaf (h : state.Stored tokens) (kind : Kind) (label : String) :
    state.machine.build? kind label [] 0 = some (state.buildLeaf kind label state.stack).machine ∧
      (state.buildLeaf kind label state.stack).Stored tokens :=
  ⟨Machine.build?_eq (Nat.zero_le _) (by simp), h.build (fun _ => id) (by simp)⟩

theorem Stored.acceptSemicolon (h : state.Stored tokens)
    (hnext : StandsAt tokens next.position next.token) :
    Mirrors tokens (state.machine.acceptSemicolon? tokens (next.position - 1))
      (.ok (state.acceptSemicolon next)) := by
  have hstatement : ∃ statement : State, statement.Stored tokens ∧
      state.machine.completeStatement? = some statement.machine ∧
      state.acceptSemicolon next = statement.reduceAll.push (.token next) := by
    have hterm : state.machine.slots.head?.any Slot.isTerm = state.topIsTerm := by
      rw [topIsTerm, machine, List.head?_map, Option.any_map]
      exact congrArg (fun test => Option.any test state.stack.head?) (funext Item.isTerm_slot)
    simp only [Machine.completeStatement?, hterm, State.acceptSemicolon]
    split
    · exact ⟨state, h, rfl, rfl⟩
    · obtain ⟨hbuild, hleaf⟩ := h.buildLeaf .term Term.emptyStatementLabel
      exact ⟨_, hleaf, hbuild, rfl⟩
  obtain ⟨statement, hstored, hcomplete, haccept⟩ := hstatement
  rw [Machine.acceptSemicolon?, hcomplete, haccept, Option.bind_eq_bind, Option.bind_some,
    hstored.reduceAll?_machine, Option.bind_some]
  exact .ok (hstored.reduceAll.push hnext)

theorem Stored.acceptVariable (h : state.Stored tokens)
    (hnext : StandsAt tokens next.position next.token) :
    Mirrors tokens (state.machine.acceptVariable? tokens (next.position - 1))
      (.ok (state.acceptVariable next)) := by
  obtain ⟨hbuild, hleaf⟩ := h.buildLeaf next.token.kind next.token.label
  simp only [Machine.acceptVariable?, hnext.2, hbuild, hleaf.reducePrefixes?_machine,
    Option.bind_eq_bind, Option.bind_some]
  exact .ok hleaf.reducePrefixes

/-- Every way of taking a token finds all that it asks for. -/
theorem Stored.accept (h : state.Stored tokens)
    (hnext : StandsAt tokens next.position next.token) :
    Mirrors tokens (state.machine.accept? tokens (next.position - 1)) (state.accept next) := by
  have hnoted := h.note (.shift next.token.label state.stack.length)
  have hmachine : state.machine.note (.shift next.token.label state.machine.slots.length) =
      (state.note (.shift next.token.label state.stack.length)).machine := by
    simp only [machine, List.length_map]
    rfl
  simp only [Machine.accept?, topKind?_machine h, hnext.2, Option.bind_eq_bind, Option.bind_some,
    hmachine, State.accept]
  split
  · cases next.token.kind with
    | assign | dyad | opening | prefixOp => exact .ok (hnoted.push hnext)
    | closing => exact hnoted.acceptClosing hnext
    | suffixOp => exact hnoted.acceptSuffix hnext
    | semicolon => exact hnoted.acceptSemicolon hnext
    | var => exact hnoted.acceptVariable hnext
    | term => exact hnoted.reject hnext
  · exact h.reject hnext

theorem Stored.acceptAll {placed : List Placed} (h : state.Stored tokens)
    (hplaced : ∀ next ∈ placed, StandsAt tokens next.position next.token) :
    Mirrors tokens (state.machine.acceptAll? tokens (placed.map fun next => next.position - 1))
      (state.acceptAll placed) := by
  induction placed generalizing state with
  | nil => exact .ok h
  | cons next placed ih =>
      obtain ⟨hnext, hplaced⟩ := List.forall_mem_cons.1 hplaced
      have haccept := h.accept hnext
      have hcons : state.acceptAll (next :: placed) =
          state.accept next >>= fun state => state.acceptAll placed := rfl
      rw [hcons, List.map_cons, Machine.acceptAll?]
      generalize state.machine.accept? tokens (next.position - 1) = checked at haccept ⊢
      generalize state.accept next = accepted at haccept ⊢
      cases haccept with
      | ok hstored => exact ih hstored hplaced
      | error => exact .error

/-! ### Whole sequences -/

theorem Stored.initial (tokens : List Token) : Stored tokens (.initial tokens.length) :=
  ⟨by simp [State.initial], Forest.Older.initial⟩

theorem Stored.complete (h : state.Stored tokens) :
    state.complete.Stored tokens ∧ state.machine.complete? tokens = some state.complete.machine := by
  rcases state with ⟨stack, forest, log⟩
  rcases stack with _ | ⟨top | _, below⟩
  case cons.token =>
    have htop := h.getElem?_token top List.mem_cons_self
    have hdropped : Stored tokens ⟨below, forest, log⟩ := h.restack (by simp +contextual)
    simp only [Machine.complete?, State.complete, machine, List.map_cons, Item.slot, htop,
      Option.bind_eq_bind, Option.bind_some]
    split
    · exact ⟨hdropped.reduceAll, hdropped.reduceAll?_machine⟩
    · exact ⟨h.reduceAll, h.reduceAll?_machine⟩
  all_goals exact ⟨h.reduceAll, h.reduceAll?_machine⟩

theorem Stored.finish?_machine {last : Placed} (h : state.Stored tokens)
    (hlast : StandsAt tokens last.position last.token) :
    state.machine.finish? tokens (last.position - 1) = some (state.finish last) := by
  obtain ⟨hcompleted, hcomplete⟩ := h.complete
  simp only [Machine.finish?, State.finish, hlast.2, hcomplete, Option.bind_eq_bind,
    Option.bind_some, index_add_one hlast]
  generalize state.complete = completed at hcompleted ⊢
  rcases completed with ⟨stack, forest, log⟩
  rcases stack with _ | ⟨_ | root, _ | ⟨next, below⟩⟩
  case cons.term.nil =>
    have hshown := Forest.display?_eq hcompleted.older (hcompleted.lt_size List.mem_cons_self)
    simp only [machine, List.map_cons, List.map_nil, Item.slot, hshown, Option.bind_some]
    split <;> rfl
  all_goals
    simp only [machine, List.map_cons, List.map_nil, Item.slot, List.length_cons, List.length_nil,
      List.length_map]
    rfl

end State

/-- The indices of the tokens in the order of their positions. -/
theorem map_index_from (start : Position) (tokens : List Token) :
    (Placed.from (start + 1) tokens).map (fun next => next.position - 1) =
      List.range' start tokens.length := by
  induction tokens generalizing start with
  | nil => rfl
  | cons token tokens ih =>
      rw [Placed.from, List.map_cons, ih, List.length_cons, List.range'_succ]
      rfl

/-- The checked parser has a result on every sequence, which is that of the parser. -/
theorem parseTraced?_eq (tokens : List Token) :
    parseTraced? tokens = some (parseTraced tokens) := by
  by_cases hne : tokens = []
  · subst hne
    rfl
  obtain ⟨last, hlast, -⟩ := exists_last hne
  have hposition : last.position = tokens.length := (last_of_all hlast).1
  have hindices : (Placed.all tokens).map (fun next => next.position - 1) =
      List.range tokens.length := by
    rw [List.range_eq_range']
    exact map_index_from 0 tokens
  have haccept := (State.Stored.initial tokens).acceptAll fun next => standsAt_of_mem
  have hfinish : ∀ state : State, state.Stored tokens →
      state.machine.finish? tokens (tokens.length - 1) = some (state.finish last) :=
    fun state hstored => hposition ▸
      hstored.finish?_machine (standsAt_of_mem (List.mem_of_getLast? hlast))
  have hstart : (⟨[], {}, [.parsing tokens.length]⟩ : Machine) =
      (State.initial tokens.length).machine := rfl
  rw [hindices] at haccept
  simp only [parseTraced?, difference?_of_le (List.length_pos_iff.2 hne), parseTraced, hlast, hstart]
  generalize (State.initial tokens.length).machine.acceptAll? tokens _ = checked at haccept ⊢
  generalize (State.initial tokens.length).acceptAll _ = accepted at haccept ⊢
  cases haccept with
  | ok hstored => exact hfinish _ hstored
  | error => rfl

end OperatorTerms
