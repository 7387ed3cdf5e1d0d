/-
Module: OperatorTerms.Proofs.StackShape
Layer: Proofs
Purpose: What the stack looks like between two tokens. The opening parentheses on it are those that
  the bracket scan has open. They cut it into levels, and on every level operands wait with their
  infix operators, the oldest of which alone may be a semi-colon, below prefix operators or below
  one operand. So the stack never hides what decides about the next token: the parser takes a token
  if the last token lets it come next and, for a closing parenthesis, if the innermost open
  parenthesis is its partner.
Imports: OperatorTerms.Proofs.DiagnosticAgreement
Main exports: State.openings, State.levels, Waiting, LevelShape, Reading.Ordered, Reader.Ordered,
  Reader.Ordered.takeAll?, Segment.levelShape, stack_of_acceptAll
-/
import OperatorTerms.Proofs.DiagnosticAgreement

namespace OperatorTerms

/-! ### The stack cut at its opening parentheses -/

/-- Whether an item is an opening parenthesis. -/
def Item.isOpening : Item → Bool
  | token placed => placed.token.kind == .opening
  | term _ => false

/-- The opening parenthesis that an item is, if it is one. -/
def Item.opening? : Item → Option Placed
  | token placed => if placed.token.kind == .opening then some placed else none
  | term _ => none

/-- The opening parentheses on the stack, topmost first. -/
def State.openings (state : State) : List Placed := state.stack.filterMap Item.opening?

/-- The items above the topmost opening parenthesis, between two neighbouring ones, and below the
    lowest one. The levels are listed from the top down, and so are the items of each. -/
def State.levels (state : State) : List (List Item) := state.stack.splitOnP Item.isOpening

/-- Items that wait for a right operand, top first: below each infix operator is its left operand,
    and only the lowest of the operators may be a semi-colon. -/
inductive Waiting : List Item → Prop where
  | nil : Waiting []
  | semicolon {semicolon : Placed} {id : NodeId} : semicolon.token.kind = .semicolon →
      Waiting [.token semicolon, .term id]
  | link {operator : Placed} {id : NodeId} {below : List Item} :
      operator.token.kind = .assign ∨ operator.token.kind = .dyad → Waiting below →
        Waiting (.token operator :: .term id :: below)

/-- The items of a level, top first: prefix operators or one term, above what waits. -/
inductive LevelShape : List Item → Prop where
  | prefixes {operators : List Placed} {below : List Item} :
      (∀ operator ∈ operators, operator.token.kind = .prefixOp) → Waiting below →
        LevelShape (operators.map .token ++ below)
  | term {id : NodeId} {below : List Item} : Waiting below → LevelShape (.term id :: below)

/-! ### Where a semi-colon may wait -/

variable {previous : Option Kind} {reading taken : Reading} {token : Token} {reader next : Reader}
  {tokens : List Token}

/-- No operand waits below a semi-colon: it is the oldest link of its chain. -/
def Reading.Ordered (reading : Reading) : Prop :=
  reading.chain.Pairwise fun newer _ => newer.2.kind ≠ .semicolon

theorem Reading.Takes.ordered (h : Takes token reading taken) (hordered : reading.Ordered) :
    taken.Ordered := by
  cases h with
  | infixOp hkind =>
      apply List.Pairwise.cons _ hordered
      intro older _ hsemicolon
      rcases hkind with hkind | hkind
      · rw [hkind] at hsemicolon
        contradiction
      · rw [hkind] at hsemicolon
        contradiction
  | semicolon _ _ => exact List.pairwise_singleton _ _
  | suffixOp _ => exact hordered
  | prefixOp _ => exact hordered
  | var _ => exact hordered

/-- The chains of all levels are in order. -/
structure Reader.Ordered (reader : Reader) : Prop where
  reading : reader.reading.Ordered
  around : ∀ entry ∈ reader.around, entry.2.Ordered

namespace Reader.Ordered

theorem initial : Reader.Ordered {} := by
  constructor
  · exact List.Pairwise.nil
  · simp

/-- Whatever token is read next, the chains stay in order. -/
theorem take? (h : reader.Ordered) (hsound : reader.Sound previous)
    (hallowed : Grammar.allows previous token.kind = true)
    (htake : reader.take? token = some next) : next.Ordered := by
  rcases take?_cases htake with
    ⟨-, rfl⟩ | ⟨opened, outer, around, haround, -, rfl⟩ | ⟨hkind, rfl⟩
  · constructor
    · exact List.Pairwise.nil
    · exact List.forall_mem_cons.2 ⟨h.reading, h.around⟩
  · have houter := h.around
    rw [haround] at houter
    constructor
    · exact List.Pairwise.nil
    · exact (List.forall_mem_cons.1 houter).2
  · constructor
    · exact (hsound.phase.takes hallowed hkind).ordered h.reading
    · exact h.around

/-- A run over linked tokens keeps the chains in order. -/
theorem takeAll? (h : reader.Ordered) (hsound : reader.Sound previous)
    (hlinked : Linked previous tokens) (htake : reader.takeAll? tokens = some next) :
    next.Ordered := by
  induction tokens generalizing previous reader with
  | nil =>
      cases htake
      exact h
  | cons token rest ih =>
      rw [takeAll?_cons, Option.bind_eq_some_iff] at htake
      obtain ⟨between, hbetween, htake⟩ := htake
      apply ih (h.take? hsound hlinked.1 hbetween) (hsound.take? hlinked.1 hbetween) hlinked.2
      exact htake

end Reader.Ordered

/-- Prefix operators do not wait above an operand. -/
theorem Reader.Phase.prefixes_or_current (h : Phase previous reader) :
    reader.reading.current = none ∨ reader.reading.prefixes = [] := by
  cases h with
  | complete _ => exact .inr rfl
  | start | opened | separated _ | combined _ _ | prefixed => exact .inl rfl

/-! ### Segments have the shape of a level -/

theorem Item.opening?_eq_none {item : Item} (h : item.isOpening = false) :
    item.opening? = none := by
  cases item with
  | term id => rfl
  | token placed =>
      rw [isOpening] at h
      rw [opening?, h]
      rfl

namespace Segment

variable {segment : Segment} {forest : Forest}

theorem waiting_chainItems {chain : List (NodeId × Placed)}
    (hlinks : ∀ link ∈ chain, link.2.token.kind.isInfix = true)
    (hordered : chain.Pairwise fun newer _ => newer.2.token.kind ≠ .semicolon) :
    Waiting (chainItems chain) := by
  induction chain with
  | nil => exact .nil
  | cons link older ih =>
      obtain ⟨hlink, holder⟩ := List.forall_mem_cons.1 hlinks
      obtain ⟨hnewer, hordered⟩ := List.pairwise_cons.1 hordered
      have hkinds : link.2.token.kind = .semicolon ∨ link.2.token.kind = .assign ∨
          link.2.token.kind = .dyad := by
        revert hlink
        cases link.2.token.kind <;> simp [Kind.isInfix]
      rcases hkinds with hsemicolon | hoperator
      · -- A semi-colon is the oldest link, so nothing is below its operand.
        cases older with
        | nil => exact .semicolon hsemicolon
        | cons next older => exact absurd hsemicolon (hnewer next List.mem_cons_self)
      · exact .link hoperator (ih holder hordered)

theorem ordered_of_reading (h : (segment.reading forest).Ordered) :
    segment.chain.Pairwise fun newer _ => newer.2.token.kind ≠ .semicolon :=
  List.pairwise_map.1 h

theorem levelShape (hsound : segment.Sound) (hordered : (segment.reading forest).Ordered)
    (hplace : segment.current = none ∨ segment.prefixes = []) : LevelShape segment.items := by
  have hwaiting := waiting_chainItems hsound.chain (ordered_of_reading hordered)
  rcases segment with ⟨chain, prefixes, current⟩
  cases current with
  | none => exact .prefixes hsound.prefixes hwaiting
  | some id =>
      rcases hplace with hcurrent | hprefixes
      · contradiction
      · cases hprefixes
        exact .term hwaiting

/-- No item of a segment is a parenthesis. -/
theorem isBracket_eq_false (hsound : segment.Sound) :
    ∀ item ∈ segment.items, item.kind.isBracket = false := by
  intro item hitem
  simp only [items, waiting, chainItems, List.mem_append, Option.mem_toList, Option.map_eq_some_iff,
    List.mem_map, List.mem_flatMap, List.mem_cons, List.not_mem_nil, or_false] at hitem
  rcases hitem with ⟨id, -, rfl⟩ | ⟨operator, hoperator, rfl⟩ | ⟨link, hlink, rfl | rfl⟩
  · rfl
  · rw [Item.kind, hsound.prefixes operator hoperator]
    rfl
  · have hinfix := hsound.chain link hlink
    revert hinfix
    rw [Item.kind]
    cases link.2.token.kind <;> simp [Kind.isInfix, Kind.isBracket]
  · rfl

theorem isOpening_eq_false (hsound : segment.Sound) :
    ∀ item ∈ segment.items, item.isOpening = false := by
  intro item hitem
  have hbracket := isBracket_eq_false hsound item hitem
  cases item with
  | term id => rfl
  | token placed =>
      revert hbracket
      rw [Item.kind, Item.isOpening]
      cases placed.token.kind <;> simp [Kind.isBracket]

theorem filterMap_opening? (hsound : segment.Sound) :
    segment.items.filterMap Item.opening? = [] := by
  apply List.filterMap_eq_nil_iff.2
  intro item hitem
  exact Item.opening?_eq_none (isOpening_eq_false hsound item hitem)

end Segment

/-! ### The whole stack -/

namespace Layers

variable {segment : Segment} {around : List (Placed × Segment)}

/-- The opening parentheses among the items are those between the segments. -/
theorem filterMap_items (htop : segment.Sound)
    (haround : ∀ entry ∈ around, entry.1.token.kind = .opening ∧ entry.2.Sound) :
    (segment.items ++ itemsBelow around).filterMap Item.opening? = around.map Prod.fst := by
  induction around generalizing segment with
  | nil =>
      rw [List.filterMap_append, Segment.filterMap_opening? htop]
      rfl
  | cons entry around ih =>
      obtain ⟨⟨hkind, hentry⟩, haround⟩ := List.forall_mem_cons.1 haround
      have hitems : itemsBelow (entry :: around) =
          .token entry.1 :: (entry.2.items ++ itemsBelow around) := rfl
      have hopening : (Item.token entry.1).opening? = some entry.1 := by
        simp [Item.opening?, hkind]
      rw [List.filterMap_append, Segment.filterMap_opening? htop, hitems,
        List.filterMap_cons_some hopening, ih hentry haround]
      rfl

/-- Cut at the opening parentheses, the items are the segments. -/
theorem splitOnP_items (htop : segment.Sound)
    (haround : ∀ entry ∈ around, entry.1.token.kind = .opening ∧ entry.2.Sound) :
    (segment.items ++ itemsBelow around).splitOnP Item.isOpening =
      segment.items :: around.map fun entry => entry.2.items := by
  induction around generalizing segment with
  | nil =>
      rw [itemsBelow, List.flatMap_nil, List.append_nil]
      exact List.splitOnP_eq_singleton (Segment.isOpening_eq_false htop)
  | cons entry around ih =>
      obtain ⟨⟨hkind, hentry⟩, haround⟩ := List.forall_mem_cons.1 haround
      have hitems : itemsBelow (entry :: around) =
          .token entry.1 :: (entry.2.items ++ itemsBelow around) := rfl
      have hopening : (Item.token entry.1).isOpening = true := by
        simp [Item.isOpening, hkind]
      rw [hitems, List.splitOnP_append_cons_of_forall_mem (Segment.isOpening_eq_false htop) _
        hopening, ih hentry haround]
      rfl

end Layers

/-- The bracket scan has no objection to a token unless it is a closing parenthesis and not the
    partner of the innermost open one. -/
theorem Nesting.exists_step_iff (previous : Option Kind) {opened : List Placed} {next : Placed} :
    (∃ opened', step previous opened next = .ok opened') ↔
      (next.token.kind = .closing →
        ∃ innermost ∈ opened.head?, innermost.token.pairsWith next.token = true) := by
  constructor
  · rintro ⟨opened', hstep⟩ hclosing
    rcases step_cases hstep with ⟨hkind, -⟩ | ⟨innermost, hpairs, rfl⟩ | ⟨hkind, -⟩
    · rw [hclosing] at hkind
      contradiction
    · exact ⟨innermost, rfl, hpairs⟩
    · rw [hclosing] at hkind
      contradiction
  · intro hpartner
    rcases next.token.kind.bracket_or_plain with hkind | hkind | hkind
    · exact ⟨_, step_opening hkind⟩
    · obtain ⟨innermost, hinnermost, hpairs⟩ := hpartner hkind
      obtain ⟨outer, rfl⟩ := List.head?_eq_some_iff.1 hinnermost
      exact ⟨outer, by rw [step_closing hkind, if_pos hpairs]⟩
    · exact ⟨_, step_plain hkind⟩

namespace State.Follows

variable {state : State} {opened : List Placed}

/-- The stack consists of sound segments, which stand for what the reader holds. -/
theorem exists_layers (h : state.Follows previous opened reader) :
    ∃ layers : Layers, state.stack = layers.items ∧ layers.opened = opened ∧
      layers.reader state.forest = reader ∧ layers.top.Sound ∧
        ∀ entry ∈ layers.around, entry.1.token.kind = .opening ∧ entry.2.Sound := by
  obtain ⟨⟨layers, hshows, hopened, rfl⟩, hsound⟩ := h
  refine ⟨layers, hshows.stack, hopened, rfl, Segment.sound_of_reading hsound.level, ?_⟩
  intro entry hentry
  obtain ⟨hkind, -, hlevel⟩ := hsound.around (entry.1.token, entry.2.reading state.forest)
    (List.mem_map_of_mem hentry)
  exact ⟨hkind, Segment.sound_of_reading hlevel⟩

/-- The opening parentheses on the stack are those that the bracket scan has open. -/
theorem openings_eq (h : state.Follows previous opened reader) : state.openings = opened := by
  obtain ⟨layers, hstack, rfl, -, htop, haround⟩ := h.exists_layers
  rw [openings, hstack]
  exact Layers.filterMap_items htop haround

/-- Every level of the stack has its shape. -/
theorem levelShape (h : state.Follows previous opened reader) (hordered : reader.Ordered) :
    ∀ level ∈ state.levels, LevelShape level := by
  obtain ⟨layers, hstack, -, rfl, htop, haround⟩ := h.exists_layers
  rw [levels, hstack, Layers.items, Layers.splitOnP_items htop haround]
  refine List.forall_mem_cons.2 ⟨?_, ?_⟩
  · apply Segment.levelShape htop hordered.reading
    simpa [Layers.reader, Segment.reading] using h.sound.phase.prefixes_or_current
  · intro level hlevel
    obtain ⟨entry, hentry, rfl⟩ := List.mem_map.1 hlevel
    have hmem := List.mem_map_of_mem (f := fun entry : Placed × Segment =>
      (entry.1.token, entry.2.reading state.forest)) hentry
    obtain ⟨-, hcurrent, -⟩ := h.sound.around _ hmem
    apply Segment.levelShape (haround entry hentry).2 (hordered.around _ hmem)
    exact .inl (Option.map_eq_none_iff.1 hcurrent)

/-- The parser takes the tokens that may come next, apart from closing parentheses without
    partner. -/
theorem exists_accept_iff (h : state.Follows previous opened reader) (next : Placed) :
    (∃ state', state.accept next = .ok state') ↔
      Grammar.allows previous next.token.kind = true ∧
        (next.token.kind = .closing →
          ∃ innermost ∈ opened.head?, innermost.token.pairsWith next.token = true) := by
  rw [← Nesting.exists_step_iff previous]
  constructor
  · rintro ⟨state', haccept⟩
    exact h.of_accept haccept
  · rintro ⟨hallowed, opened', hstep⟩
    obtain ⟨state', -, haccept, -⟩ := h.accept hallowed hstep
    exact ⟨state', haccept⟩

end State.Follows

/-- Whatever beginning of a sequence the parser has taken, its stack holds the parentheses that the
    bracket scan has open, and between them levels of the one shape. And it takes the next token
    exactly if the tables let it follow the last one and the bracket scan lets it close a group. -/
theorem stack_of_acceptAll {count : Nat} {placed : List Placed} {state : State}
    (haccept : (State.initial count).acceptAll placed = .ok state) :
    Nesting.scan none [] placed = .ok state.openings ∧
      (∀ level ∈ state.levels, LevelShape level) ∧
      ∀ next : Placed, (∃ state', state.accept next = .ok state') ↔
        Grammar.allows (lastKind none (placed.map Placed.token)) next.token.kind = true ∧
          (next.token.kind = .closing →
            ∃ innermost ∈ state.openings.head?, innermost.token.pairsWith next.token = true) := by
  obtain ⟨hlinked, opened, hscan⟩ := (State.Follows.initial count).of_acceptAll haccept
  obtain ⟨state', reader, haccept', htake, hfollows⟩ :=
    (State.Follows.initial count).acceptAll hlinked hscan
  cases haccept.symm.trans haccept'
  have hordered := Reader.Ordered.initial.takeAll? .initial hlinked htake
  rw [hfollows.openings_eq]
  exact ⟨hscan, hfollows.levelShape hordered, hfollows.exists_accept_iff⟩

/-- With a group open behind a semi-colon, the parenthesis waits on the stack, and a closing one is
    refused unless it is the partner. -/
theorem stack_of_open_group :
    ∃ state, (State.initial 4).acceptAll (Placed.all [⟨.var, "x", ""⟩, ⟨.semicolon, ";", ""⟩,
        ⟨.opening, "(", "round"⟩, ⟨.var, "y", ""⟩]) = .ok state ∧
      state.openings = [⟨3, ⟨.opening, "(", "round"⟩⟩] ∧
      (∀ level ∈ state.levels, LevelShape level) ∧
      (∃ state', state.accept ⟨5, ⟨.closing, ")", "round"⟩⟩ = .ok state') ∧
      ¬ ∃ state', state.accept ⟨5, ⟨.closing, "]", "square"⟩⟩ = .ok state' := by
  have hscan : Nesting.scan none [] (Placed.all [⟨.var, "x", ""⟩, ⟨.semicolon, ";", ""⟩,
      ⟨.opening, "(", "round"⟩, ⟨.var, "y", ""⟩]) = .ok [⟨3, ⟨.opening, "(", "round"⟩⟩] := rfl
  obtain ⟨state, -, haccept, -⟩ := (State.Follows.initial 4).acceptAll
    (by exact ⟨rfl, rfl, rfl, rfl, trivial⟩) hscan
  obtain ⟨hscan', hshape, htakes⟩ := stack_of_acceptAll haccept
  have hopenings : state.openings = [⟨3, ⟨.opening, "(", "round"⟩⟩] :=
    Except.ok.inj (hscan'.symm.trans hscan)
  rw [hopenings] at htakes
  refine ⟨state, haccept, hopenings, hshape, (htakes _).2 ⟨by decide, ?_⟩, ?_⟩
  · intro _
    exact ⟨_, rfl, by decide⟩
  · intro htaken
    obtain ⟨innermost, hinnermost, hpairs⟩ := ((htakes _).1 htaken).2 rfl
    cases hinnermost
    exact absurd hpairs (by decide)

end OperatorTerms
