/-
Module: OperatorTerms.Proofs.StackLayers
Layer: Proofs
Purpose: What the stack shows of the sequence read so far. Cut at the opening parentheses that wait
  on it, the stack falls into segments, one for each level, and looking the nodes up in the forest
  turns these into a reader. Completing a segment builds the term that closing the chain of its
  level gives, and since forests only grow, segments further down keep their meaning meanwhile.
Imports: OperatorTerms.Proofs.ForestGrowth, OperatorTerms.Proofs.ReaderPhases,
  OperatorTerms.Proofs.ReductionFold
Main exports: Segment.reading, Draft.Builds, Segment.builds_complete, Layers, Layers.reader,
  State.Shows, State.Tracks
-/
import OperatorTerms.Proofs.ForestGrowth
import OperatorTerms.Proofs.ReaderPhases
import OperatorTerms.Proofs.ReductionFold

namespace OperatorTerms

/-! ### Segments as readings -/

namespace Segment

/-- What a chain stands for, with its nodes looked up in the forest. -/
def terms (forest : Forest) (chain : List (NodeId × Placed)) : List (Term × Token) :=
  chain.map fun link => (forest.term link.1, link.2.token)

/-- What the segment stands for. -/
def reading (forest : Forest) (segment : Segment) : Reading where
  chain := terms forest segment.chain
  prefixes := segment.prefixes.map Placed.token
  current := segment.current.map forest.term

/-- The nodes of the segment are below the given bound. -/
structure Within (bound : Nat) (segment : Segment) : Prop where
  chain : ∀ link ∈ segment.chain, link.1 < bound
  current : ∀ id ∈ segment.current, id < bound

theorem Within.mono {bound larger : Nat} {segment : Segment} (h : segment.Within bound)
    (hle : bound ≤ larger) : segment.Within larger :=
  ⟨fun link hlink => Nat.lt_of_lt_of_le (h.chain link hlink) hle,
    fun id hid => Nat.lt_of_lt_of_le (h.current id hid) hle⟩

theorem terms_of_extends {old new : Forest} {chain : List (NodeId × Placed)}
    (h : old.Extends new) (hwithin : ∀ link ∈ chain, link.1 < old.size) :
    terms new chain = terms old chain := by
  apply List.map_congr_left
  intro link hlink
  rw [h.term_eq (hwithin link hlink)]

/-- A segment keeps its meaning while the forest grows. -/
theorem reading_of_extends {old new : Forest} {segment : Segment} (h : old.Extends new)
    (hwithin : segment.Within old.size) : segment.reading new = segment.reading old := by
  have hcurrent : segment.current.map new.term = segment.current.map old.term := by
    apply Option.map_congr
    intro id hid
    exact h.term_eq (hwithin.current id hid)
  rw [reading, reading, terms_of_extends h hwithin.chain, hcurrent]

theorem sound_of_reading {forest : Forest} {segment : Segment}
    (h : (segment.reading forest).Sound) : segment.Sound :=
  ⟨fun operator hoperator => h.prefixes operator.token (List.mem_map_of_mem hoperator),
    fun link hlink =>
      h.chain (forest.term link.1, link.2.token) (List.mem_map.2 ⟨link, hlink, rfl⟩)⟩

end Segment

/-! ### What drafts build -/

namespace Draft

/-- The term that the draft stands for so far. -/
def term (draft : Draft) : Term := draft.forest.term draft.root

/-- From a forest the draft has been made which stands for the given term. -/
structure Builds (before : Forest) (draft : Draft) (value : Term) : Prop where
  extends_before : before.Extends draft.forest
  root_lt : draft.root < draft.forest.size
  term_eq : draft.term = value

variable {before : Forest} {draft : Draft} {value : Term}

theorem builds_leaf (forest : Forest) (log : List Record) (kind : Kind) (label : String) :
    (leaf forest log kind label).Builds forest (.leaf kind label) := by
  refine ⟨forest.extends_apply kind label [], ?_, ?_⟩
  · simp [leaf, Forest.leaf]
  · exact Forest.term_apply (by simp)

theorem Builds.wrap (h : draft.Builds before value) (operator : Placed) :
    (draft.wrap operator).Builds before (Reading.node operator.token [value]) := by
  refine ⟨h.extends_before.trans (draft.forest.extends_apply _ _ _), ?_, ?_⟩
  · simp [Draft.wrap]
  · rw [← h.term_eq]
    exact Forest.term_apply (by simpa using h.root_lt)

theorem Builds.join (h : draft.Builds before value) {link : NodeId × Placed}
    (hlink : link.1 < before.size) :
    (draft.join link).Builds before
      (Reading.node link.2.token [before.term link.1, value]) := by
  have hstored : link.1 < draft.forest.size :=
    Nat.lt_of_lt_of_le hlink h.extends_before.size_le
  refine ⟨h.extends_before.trans (draft.forest.extends_apply _ _ _), ?_, ?_⟩
  · simp [Draft.join]
  · rw [← h.term_eq, ← h.extends_before.term_eq hlink]
    exact Forest.term_apply (by simpa using ⟨hstored, h.root_lt⟩)

theorem Builds.wrapAll (h : draft.Builds before value) (operators : List Placed) :
    (operators.foldl Draft.wrap draft).Builds before
      ((operators.map Placed.token).foldl
        (fun operand operator => Reading.node operator [operand]) value) := by
  induction operators generalizing draft value with
  | nil => exact h
  | cons operator operators ih => exact ih (h.wrap operator)

theorem Builds.joinAll (h : draft.Builds before value) {chain : List (NodeId × Placed)}
    (hchain : ∀ link ∈ chain, link.1 < before.size) :
    (chain.foldl Draft.join draft).Builds before
      ((Segment.terms before chain).foldl
        (fun right link => Reading.node link.2 [link.1, right]) value) := by
  induction chain generalizing draft value with
  | nil => exact h
  | cons link chain ih =>
      exact ih (h.join (hchain link (by simp))) fun l hl => hchain l (by simp [hl])

end Draft

/-- Completing a segment builds what the level means with its last operand. -/
theorem Segment.builds_complete {segment : Segment} {before : Forest} {draft : Draft}
    {value : Term} (h : draft.Builds before value) (hwithin : segment.Within before.size) :
    (segment.complete draft).Builds before
      ((segment.reading before).closeChain ((segment.reading before).applyPrefixes value)) :=
  (h.wrapAll segment.prefixes).joinAll hwithin.chain

/-! ### The stack in layers -/

/-- The stack, cut at the opening parentheses that wait on it. -/
structure Layers where
  /-- The items above the topmost opening parenthesis. -/
  top : Segment := {}
  /-- The opening parentheses, topmost first, each with the items below it. -/
  around : List (Placed × Segment) := []

namespace Layers

/-- The items from the topmost opening parenthesis down. -/
def itemsBelow (around : List (Placed × Segment)) : List Item :=
  around.flatMap fun entry => .token entry.1 :: entry.2.items

/-- All items, top first. -/
def items (layers : Layers) : List Item := layers.top.items ++ itemsBelow layers.around

/-- The opening parentheses that wait, topmost first. -/
def opened (layers : Layers) : List Placed := layers.around.map Prod.fst

/-- What the levels around the topmost one stand for. -/
def readingsAround (forest : Forest) (around : List (Placed × Segment)) :
    List (Token × Reading) :=
  around.map fun entry => (entry.1.token, entry.2.reading forest)

/-- What the layers stand for. -/
def reader (forest : Forest) (layers : Layers) : Reader where
  reading := layers.top.reading forest
  around := readingsAround forest layers.around

/-- All nodes on the stack are below the given bound. -/
structure Within (bound : Nat) (layers : Layers) : Prop where
  top : layers.top.Within bound
  around : ∀ entry ∈ layers.around, entry.2.Within bound

theorem readingsAround_of_extends {old new : Forest} {around : List (Placed × Segment)}
    (h : old.Extends new) (hwithin : ∀ entry ∈ around, entry.2.Within old.size) :
    readingsAround new around = readingsAround old around := by
  apply List.map_congr_left
  intro entry hentry
  rw [Segment.reading_of_extends h (hwithin entry hentry)]

end Layers

/-- The stack consists of the given layers, and their nodes are in the forest. -/
structure State.Shows (state : State) (layers : Layers) : Prop where
  stack : state.stack = layers.items
  within : layers.Within state.forest.size

/-- The stack stands for what a reader holds, and the given opening parentheses wait on it. -/
def State.Tracks (state : State) (opened : List Placed) (reader : Reader) : Prop :=
  ∃ layers : Layers,
    state.Shows layers ∧ layers.opened = opened ∧ layers.reader state.forest = reader

theorem State.Tracks.around_eq_nil {state : State} {reader : Reader}
    (h : state.Tracks [] reader) : reader.around = [] := by
  obtain ⟨⟨top, below⟩, -, hopened, rfl⟩ := h
  cases List.map_eq_nil_iff.1 hopened
  rfl

theorem State.Tracks.around_eq_cons {state : State} {innermost : Placed} {outer : List Placed}
    {reader : Reader} (h : state.Tracks (innermost :: outer) reader) :
    ∃ reading around, reader.around = (innermost.token, reading) :: around := by
  obtain ⟨⟨top, below⟩, -, hopened, rfl⟩ := h
  obtain ⟨entry, below, rfl, rfl, -⟩ := List.map_eq_cons_iff.1 hopened
  exact ⟨_, _, rfl⟩

end OperatorTerms
