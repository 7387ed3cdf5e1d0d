/-
Module: OperatorTerms.Proofs.AcceptSimulation
Layer: Proofs
Purpose: What the parser does with the stack, said of the reader that the stack stands for. The top
  of the stack tells what may come next as the last token does, and each way of taking a token
  changes the stack as reading the token changes the reader. Before a closing parenthesis the stack
  is reduced to the value of its level; without a partner below it the parenthesis is rejected.
Imports: OperatorTerms.Automaton.Step, OperatorTerms.Proofs.BracketScan,
  OperatorTerms.Proofs.StackLayers
Main exports: State.Shows.topKind?_eq, State.Tracks.push_link, State.Tracks.push_prefix,
  State.Tracks.push_opening, State.Tracks.acceptSuffix, State.Tracks.acceptVariable,
  State.Tracks.acceptSemicolon, State.Tracks.acceptClosing, State.Tracks.exists_stray,
  State.Tracks.exists_mismatch, State.Tracks.acceptClosing_error
-/
import OperatorTerms.Automaton.Step
import OperatorTerms.Proofs.BracketScan
import OperatorTerms.Proofs.StackLayers

namespace OperatorTerms

/-! ### Segments by their readings -/

namespace Segment

variable {forest : Forest} {segment : Segment} {chain : List (Term × Token)}

theorem of_reading_empty (h : segment.reading forest = {}) : segment = {} := by
  rcases segment with ⟨links, prefixes, current⟩
  simp only [reading, terms, Reading.mk.injEq, List.map_eq_nil_iff, Option.map_eq_none_iff] at h
  obtain ⟨rfl, rfl, rfl⟩ := h
  rfl

theorem of_reading_waiting {prefixes : List Token}
    (h : segment.reading forest = { chain, prefixes }) :
    ∃ links operators, segment = { chain := links, prefixes := operators } ∧
      chain = terms forest links ∧ prefixes = operators.map Placed.token := by
  rcases segment with ⟨links, operators, current⟩
  simp only [reading, Reading.mk.injEq, Option.map_eq_none_iff] at h
  obtain ⟨hchain, hprefixes, rfl⟩ := h
  exact ⟨links, operators, rfl, hchain.symm, hprefixes.symm⟩

theorem of_reading_current {operand : Term}
    (h : segment.reading forest = { chain, current := some operand }) :
    ∃ links id, segment = { chain := links, current := some id } ∧
      chain = terms forest links ∧ operand = forest.term id := by
  rcases segment with ⟨links, prefixes, current⟩
  simp only [reading, Reading.mk.injEq, List.map_eq_nil_iff, Option.map_eq_some_iff] at h
  obtain ⟨hchain, rfl, id, rfl, hoperand⟩ := h
  exact ⟨links, id, rfl, hchain.symm, hoperand.symm⟩

theorem of_reading_separated {operand : Term} {semicolon : Token}
    (h : segment.reading forest = { chain := [(operand, semicolon)] }) :
    ∃ id placed, segment = { chain := [(id, placed)] } ∧
      operand = forest.term id ∧ semicolon = placed.token := by
  rcases segment with ⟨links, prefixes, current⟩
  simp only [reading, terms, Reading.mk.injEq, List.map_eq_singleton_iff, List.map_eq_nil_iff,
    Option.map_eq_none_iff, Prod.mk.injEq] at h
  obtain ⟨⟨⟨id, placed⟩, rfl, hoperand, hsemicolon⟩, rfl, rfl⟩ := h
  exact ⟨id, placed, rfl, hoperand.symm, hsemicolon.symm⟩

end Segment

namespace State

variable {state : State} {layers : Layers} {previous : Option Kind} {next : Placed}
  {opened : List Placed} {reader : Reader} {chain : List (Term × Token)} {prefixes : List Token}
  {operand : Term} {around : List (Token × Reading)}

/-- The kind on top of the stack is that of the last token, unless a term has taken its place. -/
theorem Shows.topKind?_eq (h : state.Shows layers)
    (hsound : (layers.reader state.forest).Sound previous) :
    state.topKind? = if layers.top.current.isSome then some .term else previous := by
  have hphase := hsound.phase
  have haround := hsound.around
  rw [topKind?, h.stack]
  rcases layers with ⟨⟨chain, prefixes, current⟩, around⟩
  generalize hreader : Layers.reader state.forest ⟨⟨chain, prefixes, current⟩, around⟩ = reader
    at hphase haround
  simp only [Layers.reader, Segment.reading, Segment.terms, Layers.readingsAround] at hreader
  cases hphase with
  | start =>
      simp only [Reader.mk.injEq, Reading.mk.injEq, List.map_eq_nil_iff,
        Option.map_eq_none_iff] at hreader
      obtain ⟨⟨rfl, rfl, rfl⟩, rfl⟩ := hreader
      rfl
  | opened =>
      simp only [Reader.mk.injEq, Reading.mk.injEq, List.map_eq_nil_iff, List.map_eq_cons_iff,
        Option.map_eq_none_iff] at hreader
      obtain ⟨⟨rfl, rfl, rfl⟩, entry, outer, rfl, hentry, -⟩ := hreader
      cases hentry
      have hkind : entry.1.token.kind = .opening := (haround _ List.mem_cons_self).1
      exact congrArg some hkind
  | separated hkind =>
      simp only [Reader.mk.injEq, Reading.mk.injEq, List.map_eq_singleton_iff,
        List.map_eq_nil_iff, Option.map_eq_none_iff] at hreader
      obtain ⟨⟨⟨link, rfl, hlink⟩, rfl, rfl⟩, -⟩ := hreader
      cases hlink
      exact congrArg some hkind
  | combined _ hkind =>
      simp only [Reader.mk.injEq, Reading.mk.injEq, List.map_eq_cons_iff, List.map_eq_nil_iff,
        Option.map_eq_none_iff] at hreader
      obtain ⟨⟨⟨link, older, rfl, hlink, -⟩, rfl, rfl⟩, -⟩ := hreader
      cases hlink
      exact congrArg some hkind
  | prefixed =>
      have hkind := hsound.level.prefixes
      simp only [Reader.mk.injEq, Reading.mk.injEq, List.map_eq_cons_iff,
        Option.map_eq_none_iff] at hreader
      obtain ⟨⟨-, ⟨operator, older, rfl, rfl, -⟩, rfl⟩, -⟩ := hreader
      have hoperator : operator.token.kind = .prefixOp := hkind _ List.mem_cons_self
      exact congrArg some hoperator
  | complete _ =>
      simp only [Reader.mk.injEq, Reading.mk.injEq, Option.map_eq_some_iff] at hreader
      obtain ⟨⟨-, -, id, rfl, -⟩, -⟩ := hreader
      rfl

/-- What may come next can be told from the top of the stack as well as from the last token. -/
theorem Shows.expectedAfter_topKind? (h : state.Shows layers)
    (hsound : (layers.reader state.forest).Sound previous) :
    Grammar.expectedAfter state.topKind? = Grammar.expectedAfter previous := by
  rw [h.topKind?_eq hsound]
  split
  · rename_i hcurrent
    obtain ⟨kind, rfl, hkind⟩ :=
      hsound.phase.kind_of_current (by simpa [Layers.reader, Segment.reading])
    rcases hkind with rfl | rfl | rfl <;> rfl
  · rfl

theorem Tracks.note (h : state.Tracks opened reader)
    (record : Record) : (state.note record).Tracks opened reader := by
  obtain ⟨layers, hshows, hopened, hreader⟩ := h
  exact ⟨layers, ⟨hshows.stack, hshows.within⟩, hopened, hreader⟩

/-- A draft on top of a chain and the items below stands for an operand that was just read. -/
theorem tracks_atop {draft : Draft} {before : Forest} {value : Term}
    {links : List (NodeId × Placed)} {below : List (Placed × Segment)}
    (h : draft.Builds before value) (hlinks : ∀ link ∈ links, link.1 < before.size)
    (hbelow : ∀ entry ∈ below, entry.2.Within before.size) :
    (draft.atop (Segment.chainItems links ++ Layers.itemsBelow below)).Tracks
      (below.map Prod.fst)
      ⟨{ chain := Segment.terms before links, current := some value },
        Layers.readingsAround before below⟩ := by
  have hle := h.extends_before.size_le
  refine ⟨⟨{ chain := links, current := some draft.root }, below⟩, ⟨rfl, ⟨⟨?_, ?_⟩, ?_⟩⟩, rfl, ?_⟩
  · exact fun link hlink => Nat.lt_of_lt_of_le (hlinks link hlink) hle
  · rintro id ⟨⟩
    exact h.root_lt
  · exact fun entry hentry => (hbelow entry hentry).mono hle
  · rw [Layers.reader, Draft.atop, Layers.readingsAround_of_extends h.extends_before hbelow,
      Segment.reading, Segment.terms_of_extends h.extends_before hlinks, ← h.term_eq]
    rfl

/-- Where an operand was just read, a draft of it is on top of the chain. -/
theorem Tracks.eq_atop (h : state.Tracks opened ⟨{ chain, current := some operand }, around⟩) :
    ∃ (draft : Draft) (links : List (NodeId × Placed)) (below : List (Placed × Segment)),
      state = draft.atop (Segment.chainItems links ++ Layers.itemsBelow below) ∧
        draft.Builds state.forest operand ∧
        (∀ link ∈ links, link.1 < state.forest.size) ∧
        (∀ entry ∈ below, entry.2.Within state.forest.size) ∧
        opened = below.map Prod.fst ∧ chain = Segment.terms state.forest links ∧
        around = Layers.readingsAround state.forest below := by
  obtain ⟨⟨top, below⟩, ⟨hstack, hwithin⟩, hopened, hreader⟩ := h
  obtain ⟨htop, hbelow⟩ := Reader.mk.inj hreader
  obtain ⟨links, id, rfl, hchain, hoperand⟩ := Segment.of_reading_current htop
  refine ⟨⟨id, state.forest, state.log⟩, links, below, ?_, ?_, hwithin.top.chain, hwithin.around,
    hopened.symm, hchain, hbelow.symm⟩
  · calc
      state = ⟨state.stack, state.forest, state.log⟩ := rfl
      _ = _ := by
        rw [hstack]
        rfl
  · exact ⟨.refl _, hwithin.top.current id rfl, hoperand.symm⟩

/-- Where an operand is wanted, the stack consists of what waits for it. -/
theorem Tracks.eq_waiting (h : state.Tracks opened ⟨{ chain, prefixes }, around⟩) :
    ∃ (segment : Segment) (below : List (Placed × Segment)),
      state.stack = segment.waiting ++ Layers.itemsBelow below ∧
        segment.Within state.forest.size ∧
        (∀ entry ∈ below, entry.2.Within state.forest.size) ∧
        opened = below.map Prod.fst ∧ segment.reading state.forest = { chain, prefixes } ∧
        around = Layers.readingsAround state.forest below := by
  obtain ⟨⟨top, below⟩, ⟨hstack, hwithin⟩, hopened, hreader⟩ := h
  obtain ⟨htop, hbelow⟩ := Reader.mk.inj hreader
  obtain ⟨links, operators, rfl, -, -⟩ := Segment.of_reading_waiting htop
  exact ⟨_, below, hstack, hwithin.top, hwithin.around, hopened.symm, htop, hbelow.symm⟩

/-! ### Tokens that wait on the stack -/

theorem Tracks.push_link
    (h : state.Tracks opened ⟨{ chain, current := some operand }, around⟩) (next : Placed) :
    (state.push (.token next)).Tracks opened
      ⟨{ chain := (operand, next.token) :: chain }, around⟩ := by
  obtain ⟨⟨top, below⟩, ⟨hstack, hwithin⟩, hopened, hreader⟩ := h
  obtain ⟨htop, hbelow⟩ := Reader.mk.inj hreader
  obtain ⟨links, id, rfl, rfl, rfl⟩ := Segment.of_reading_current htop
  refine ⟨⟨{ chain := (id, next) :: links }, below⟩, ⟨?_, ⟨⟨?_, by simp⟩, hwithin.around⟩⟩,
    hopened, ?_⟩
  · rw [push, hstack]
    rfl
  · intro link hlink
    rcases List.mem_cons.1 hlink with rfl | hlink
    · exact hwithin.top.current id rfl
    · exact hwithin.top.chain link hlink
  · rw [← hbelow]
    rfl

theorem Tracks.push_prefix (h : state.Tracks opened ⟨{ chain, prefixes }, around⟩) (next : Placed) :
    (state.push (.token next)).Tracks opened
      ⟨{ chain, prefixes := next.token :: prefixes }, around⟩ := by
  obtain ⟨⟨top, below⟩, ⟨hstack, hwithin⟩, hopened, hreader⟩ := h
  obtain ⟨htop, hbelow⟩ := Reader.mk.inj hreader
  obtain ⟨links, operators, rfl, rfl, rfl⟩ := Segment.of_reading_waiting htop
  refine ⟨⟨{ chain := links, prefixes := next :: operators }, below⟩,
    ⟨?_, ⟨⟨hwithin.top.chain, by simp⟩, hwithin.around⟩⟩, hopened, ?_⟩
  · rw [push, hstack]
    rfl
  · rw [← hbelow]
    rfl

theorem Tracks.push_opening (h : state.Tracks opened reader) (next : Placed) :
    (state.push (.token next)).Tracks (next :: opened)
      ⟨{}, (next.token, reader.reading) :: reader.around⟩ := by
  obtain ⟨⟨top, below⟩, ⟨hstack, hwithin⟩, rfl, rfl⟩ := h
  refine ⟨⟨{}, (next, top) :: below⟩, ⟨?_, ⟨⟨by simp, by simp⟩, ?_⟩⟩, rfl, rfl⟩
  · rw [push, hstack]
    rfl
  · intro entry hentry
    rcases List.mem_cons.1 hentry with rfl | hentry
    · exact hwithin.top
    · exact hwithin.around entry hentry

/-! ### Tokens that are reduced at once -/

theorem bounded_itemsBelow {forest : Forest} {below : List (Placed × Segment)}
    (h : ∀ entry ∈ Layers.readingsAround forest below, entry.1.kind = .opening) :
    Bounded (Layers.itemsBelow below) := by
  cases below with
  | nil => simp [Bounded, Layers.itemsBelow]
  | cons entry below =>
      rintro item ⟨⟩
      exact h (entry.1.token, entry.2.reading forest) List.mem_cons_self

/-- A suffix operator is applied to the operand that was just read. -/
theorem Tracks.acceptSuffix (h : state.Tracks opened ⟨{ chain, current := some operand }, around⟩)
    (hkind : next.token.kind = .suffixOp) :
    ∃ state', state.acceptSuffix next = .ok state' ∧
      state'.Tracks opened
        ⟨{ chain, current := some (Reading.node next.token [operand]) }, around⟩ := by
  obtain ⟨draft, links, below, hstate, hdraft, hlinks, hbelow, rfl, rfl, rfl⟩ := h.eq_atop
  refine ⟨_, ?_, tracks_atop (hdraft.wrap next) hlinks hbelow⟩
  rw [hstate]
  simp [State.acceptSuffix, Rule.reduct?, hkind, Kind.isUnary, State.note, build, Draft.atop,
    Draft.wrap]

/-- A variable becomes an operand under the prefixes before it. -/
theorem Tracks.acceptVariable (h : state.Tracks opened ⟨{ chain, prefixes }, around⟩)
    (hsound : Reader.Sound previous ⟨{ chain, prefixes }, around⟩) :
    (state.acceptVariable next).Tracks opened
      ⟨{ chain, current := some (Reading.applyPrefixes { chain, prefixes }
          (Reading.node next.token [])) }, around⟩ := by
  obtain ⟨segment, below, hstack, hwithin, hbelow, rfl, hreading, rfl⟩ := h.eq_waiting
  have hsegment : segment.Sound := Segment.sound_of_reading (hreading ▸ hsound.level)
  have hbounded := bounded_itemsBelow fun entry hentry => (hsound.around entry hentry).1
  have hleaf := Draft.builds_leaf state.forest state.log next.token.kind next.token.label
  have haccept : state.acceptVariable next =
      (segment.prefixes.foldl Draft.wrap
        (.leaf state.forest state.log next.token.kind next.token.label)).atop
          (Segment.chainItems segment.chain ++ Layers.itemsBelow below) := by
    rw [State.acceptVariable, hstack, Draft.buildLeaf_eq_atop]
    exact reducePrefixes_segment hsegment hbounded
  have hreadings := Reading.mk.inj hreading
  rw [haccept, Reading.applyPrefixes, ← hreadings.1, ← hreadings.2.1]
  exact tracks_atop (hleaf.wrapAll segment.prefixes) hwithin.chain hbelow

/-- A placeholder stands for an operand that is missing. -/
theorem Tracks.buildLeaf (h : state.Tracks opened ⟨{ chain }, around⟩) (kind : Kind)
    (label : String) :
    (state.buildLeaf kind label state.stack).Tracks opened
      ⟨{ chain, current := some (.leaf kind label) }, around⟩ := by
  obtain ⟨segment, below, hstack, hwithin, hbelow, rfl, hreading, rfl⟩ := h.eq_waiting
  obtain ⟨links, operators, rfl, rfl, hoperators⟩ := Segment.of_reading_waiting hreading
  cases List.map_eq_nil_iff.1 hoperators.symm
  rw [Draft.buildLeaf_eq_atop, hstack]
  exact tracks_atop (Draft.builds_leaf state.forest state.log kind label) hwithin.chain hbelow

/-- Reduction closes the chain below an operand that was just read. -/
theorem Tracks.reduceAll (h : state.Tracks opened ⟨{ chain, current := some operand }, around⟩)
    (hchain : ∀ link ∈ chain, link.2.kind.isInfix = true)
    (haround : ∀ entry ∈ around, entry.1.kind = .opening) :
    state.reduceAll.Tracks opened
      ⟨{ current := some (Reading.closeChain { chain } operand) }, around⟩ := by
  obtain ⟨draft, links, below, hstate, hdraft, hlinks, hbelow, rfl, rfl, rfl⟩ := h.eq_atop
  have hsegment : Segment.Sound { chain := links } :=
    Segment.sound_of_reading ⟨by simp [Segment.reading], hchain⟩
  have hreduce : state.reduceAll =
      (Segment.complete { chain := links } draft).atop (Layers.itemsBelow below) := by
    rw [hstate]
    exact reduceAll_segment hsegment (bounded_itemsBelow haround)
  have hwithin : Segment.Within state.forest.size { chain := links } := ⟨hlinks, by simp⟩
  have hbuilds := Segment.builds_complete hdraft hwithin
  rw [hreduce]
  exact @tracks_atop _ _ _ [] below hbuilds (by simp) hbelow

theorem topIsTerm_of_current
    (h : state.Tracks opened ⟨{ chain, current := some operand }, around⟩) :
    state.topIsTerm = true := by
  obtain ⟨draft, links, below, hstate, -⟩ := h.eq_atop
  rw [hstate]
  rfl

theorem topIsTerm_of_waiting
    (h : state.Tracks opened ⟨{ chain, prefixes }, around⟩) : state.topIsTerm = false := by
  obtain ⟨⟨links, operators, current⟩, below, hstack, -⟩ := h.eq_waiting
  rw [topIsTerm, hstack]
  cases operators with
  | cons operator operators => rfl
  | nil =>
      cases links with
      | cons link links => rfl
      | nil =>
          cases below with
          | cons entry below => rfl
          | nil => rfl

/-- A semi-colon comes to wait behind the statement that it ends, which is a placeholder if it is
    missing. -/
theorem Tracks.acceptSemicolon (h : state.Tracks opened reader) (hsound : reader.Sound previous)
    (hallowed : Grammar.allows previous .semicolon = true) :
    (state.acceptSemicolon next).Tracks opened
      ⟨{ chain := [(reader.reading.closeChain (reader.reading.current.getD .emptyStatement),
          next.token)] }, reader.around⟩ := by
  rcases reader with ⟨reading, around⟩
  have haround : ∀ entry ∈ around, entry.1.kind = .opening :=
    fun entry hentry => (hsound.around entry hentry).1
  have hwaiting : ∀ chain, reading = { chain } →
      (state.acceptSemicolon next).Tracks opened
        ⟨{ chain := [(Reading.closeChain { chain } .emptyStatement, next.token)] }, around⟩ := by
    rintro chain rfl
    have hleaf := h.buildLeaf .term Term.emptyStatementLabel
    have hreduced := hleaf.reduceAll hsound.level.chain haround
    rw [State.acceptSemicolon, topIsTerm_of_waiting h]
    exact hreduced.push_link next
  rcases hsound.phase.statement_end hallowed (by simp) with rfl | ⟨_, _, _, rfl⟩ | ⟨_, _, rfl⟩
  · exact hwaiting _ rfl
  · exact hwaiting _ rfl
  · have hreduced := h.reduceAll hsound.level.chain haround
    rw [State.acceptSemicolon, topIsTerm_of_current h]
    exact hreduced.push_link next

/-! ### Closing parentheses -/

/-- What a closing parenthesis meets: the value of its level, if there is one, directly above the
    levels around. -/
structure ClosingStack (opened : List Placed) (reader : Reader) (closed : Placed) (state : State)
    (between : Option NodeId) (below : List (Placed × Segment)) : Prop where
  stack : state.stack =
    .token closed :: ((between.map .term).toList ++ Layers.itemsBelow below)
  value_eq : reader.reading.value? = between.map state.forest.term
  between_lt : ∀ id ∈ between, id < state.forest.size
  within_below : ∀ entry ∈ below, entry.2.Within state.forest.size
  opened_eq : opened = below.map Prod.fst
  around_eq : reader.around = Layers.readingsAround state.forest below

/-- Before a closing parenthesis looks for its partner, what stands to its left is reduced to the
    value of the level, if there is one. -/
theorem Tracks.exists_closingStack (h : state.Tracks opened reader) (hsound : reader.Sound previous)
    (hkind : next.token.kind = .closing) (hallowed : Grammar.allows previous .closing = true) :
    ∃ settled between below, ClosingStack opened reader next settled between below ∧
      (state.reduceAll.push (.token next)).reduceAll = settled.reduceAll := by
  rcases reader with ⟨reading, around⟩
  have haround : ∀ entry ∈ around, entry.1.kind = .opening :=
    fun entry hentry => (hsound.around entry hentry).1
  rcases hsound.phase.statement_end hallowed (by simp) with
    rfl | ⟨operand, semicolon, hsemicolon, rfl⟩ | ⟨chain, operand, rfl⟩
  · obtain ⟨segment, below, hstack, -, hbelow, rfl, hreading, rfl⟩ := h.eq_waiting
    cases Segment.of_reading_empty hreading
    refine ⟨state.push (.token next), none, below, ⟨?_, rfl, by simp, hbelow, rfl, rfl⟩, ?_⟩
    · rw [push, hstack]
      rfl
    · cases below with
      | nil => exact absurd rfl (hsound.phase.around_ne_nil hallowed rfl)
      | cons entry below =>
          have hentry : entry.1.token.kind = .opening := haround _ List.mem_cons_self
          have hreduce : state.reduceAll = state := by
            rcases state with ⟨stack, forest, log⟩
            cases hstack
            exact reduceAll_of_token (by simp [hentry])
          rw [hreduce]
  · obtain ⟨segment, below, hstack, hwithin, hbelow, rfl, hreading, rfl⟩ := h.eq_waiting
    obtain ⟨id, placed, rfl, rfl, rfl⟩ := Segment.of_reading_separated hreading
    have hreduce : state.reduceAll = state := by
      rcases state with ⟨stack, forest, log⟩
      cases hstack
      exact reduceAll_of_token (by simp [hsemicolon])
    refine ⟨⟨.token next :: .term id :: Layers.itemsBelow below, state.forest,
      .dropSemicolon placed.token.label next.token.label :: state.log⟩, some id, below,
      ⟨rfl, rfl, ?_, hbelow, rfl, rfl⟩, ?_⟩
    · rintro _ ⟨⟩
      exact hwithin.chain _ List.mem_cons_self
    · rw [hreduce, push, hstack]
      exact reduceAll_semicolon hsemicolon hkind
  · have hreduced := h.reduceAll hsound.level.chain haround
    obtain ⟨draft, links, below, hstate, hdraft, -, hbelow, rfl, hlinks, rfl⟩ := hreduced.eq_atop
    cases List.map_eq_nil_iff.1 hlinks.symm
    refine ⟨state.reduceAll.push (.token next), some draft.root, below,
      ⟨?_, ?_, ?_, hbelow, rfl, rfl⟩, rfl⟩
    · rw [hstate]
      rfl
    · rw [push, hstate]
      exact congrArg some hdraft.term_eq.symm
    · rintro id ⟨⟩
      rw [push, hstate]
      exact hdraft.root_lt

/-- Under a closing parenthesis and its partner the value of the level completes the segment
    around. -/
theorem ClosingStack.reduceAll_eq {opened : Placed} {rest : List Placed}
    {entry : Placed × Segment} {below : List (Placed × Segment)} {between : Option NodeId}
    (h : ClosingStack (opened :: rest) reader next state between (entry :: below))
    (hpairs : entry.1.token.pairsWith next.token = true) (hcurrent : entry.2.current = none)
    (hsound : entry.2.Sound) (hbounded : Bounded (Layers.itemsBelow below)) :
    ∃ draft : Draft, draft.Builds state.forest (reader.reading.value?.getD .emptyGroup) ∧
      state.reduceAll = (entry.2.complete draft).atop (Layers.itemsBelow below) := by
  rcases state with ⟨stack, forest, log⟩
  have hitems : entry.2.items = entry.2.waiting := by
    rw [Segment.items, hcurrent]
    rfl
  have hstack : stack = .token next :: ((between.map .term).toList ++
      .token entry.1 :: (entry.2.waiting ++ Layers.itemsBelow below)) := by
    rw [← hitems]
    exact h.stack
  rw [h.value_eq, hstack]
  cases between with
  | none => exact ⟨_, Draft.builds_leaf _ _ _ _, reduceAll_emptyGroup hpairs hsound hbounded⟩
  | some id =>
      exact ⟨_, ⟨.refl _, h.between_lt id rfl, rfl⟩, reduceAll_group hpairs hsound hbounded⟩

/-- A closing parenthesis with a partner ends the group, whose value completes the level
    around. -/
theorem Tracks.acceptClosing {opened : Placed} {rest : List Placed} {reading outer : Reading}
    (h : state.Tracks (opened :: rest) ⟨reading, (opened.token, outer) :: around⟩)
    (hsound : Reader.Sound previous ⟨reading, (opened.token, outer) :: around⟩)
    (hallowed : Grammar.allows previous .closing = true)
    (hpairs : opened.token.pairsWith next.token = true) :
    ∃ state', state.acceptClosing next = .ok state' ∧
      state'.Tracks rest ⟨outer.takeGroup (reading.value?.getD .emptyGroup), around⟩ := by
  have hkind := (Token.kind_of_pairsWith hpairs).2
  obtain ⟨settled, between, below, hclosing, hsettle⟩ :=
    h.exists_closingStack hsound hkind hallowed
  cases below with
  | nil => exact absurd hclosing.opened_eq (List.cons_ne_nil _ _)
  | cons entry below =>
      obtain ⟨rfl, rfl⟩ := List.cons.inj hclosing.opened_eq
      obtain ⟨hentry, rfl⟩ := List.cons.inj hclosing.around_eq
      obtain ⟨-, rfl⟩ := Prod.mk.inj hentry
      obtain ⟨-, hnone, hlevel⟩ := hsound.around _ List.mem_cons_self
      have hbounded := bounded_itemsBelow fun other hother =>
        (hsound.around other (List.mem_cons_of_mem _ hother)).1
      have hwithin := hclosing.within_below entry List.mem_cons_self
      obtain ⟨draft, hdraft, hreduce⟩ := hclosing.reduceAll_eq hpairs
        (Option.map_eq_none_iff.1 hnone) (Segment.sound_of_reading hlevel) hbounded
      refine ⟨_, ?_, @tracks_atop _ _ _ [] below (Segment.builds_complete hdraft hwithin)
        (by simp) fun other hother => hclosing.within_below other (by simp [hother])⟩
      rw [State.acceptClosing, hsettle, hreduce]
      rfl

/-- With no parenthesis open, a closing one stays above a term that stands alone. -/
theorem Tracks.exists_stray (h : state.Tracks [] reader) (hsound : reader.Sound previous)
    (hkind : next.token.kind = .closing) (hallowed : Grammar.allows previous .closing = true) :
    ∃ id forest log, (state.reduceAll.push (.token next)).reduceAll =
      ⟨[.token next, .term id], forest, log⟩ := by
  obtain ⟨⟨stack, forest, log⟩, between, below, hclosing, hsettle⟩ :=
    h.exists_closingStack hsound hkind hallowed
  cases hclosing.stack
  cases List.map_eq_nil_iff.1 hclosing.opened_eq.symm
  cases between with
  | some id => exact ⟨id, forest, log, hsettle.trans reduceAll_stray⟩
  | none =>
      -- Nothing was read before the parenthesis, so a group is open after all.
      have hvalue := hclosing.value_eq
      have haround := hsound.phase.around_ne_nil hallowed
      rcases hsound.phase.statement_end hallowed (by simp) with
        hreading | ⟨_, _, _, hreading⟩ | ⟨_, _, hreading⟩
      · exact absurd hclosing.around_eq (haround hreading)
      · simp [hreading, Reading.value?] at hvalue
      · simp [hreading, Reading.value?] at hvalue

/-- A closing parenthesis that is not the partner of the innermost open one stays above it, perhaps
    with a term between them. -/
theorem Tracks.exists_mismatch {innermost : Placed} {outer : List Placed}
    (h : state.Tracks (innermost :: outer) reader) (hsound : reader.Sound previous)
    (hkind : next.token.kind = .closing) (hallowed : Grammar.allows previous .closing = true)
    (hpairs : innermost.token.pairsWith next.token = false) :
    innermost.token.kind = .opening ∧ ∃ (between : Option NodeId) (below : List Item) (forest : Forest)
      (log : List Record), (state.reduceAll.push (.token next)).reduceAll =
        ⟨.token next :: ((between.map .term).toList ++ .token innermost :: below), forest, log⟩ := by
  obtain ⟨⟨stack, forest, log⟩, between, below, hclosing, hsettle⟩ :=
    h.exists_closingStack hsound hkind hallowed
  cases hclosing.stack
  cases below with
  | nil => exact absurd hclosing.opened_eq (List.cons_ne_nil _ _)
  | cons entry below =>
      obtain ⟨rfl, rfl⟩ := List.cons.inj hclosing.opened_eq
      have hopened : entry.1.token.kind = .opening :=
        (hsound.around (entry.1.token, entry.2.reading forest)
          (by simp [hclosing.around_eq, Layers.readingsAround])).1
      have hitems : Layers.itemsBelow (entry :: below) =
          .token entry.1 :: (entry.2.items ++ Layers.itemsBelow below) := rfl
      refine ⟨hopened, between, entry.2.items ++ Layers.itemsBelow below, forest, log, ?_⟩
      rw [hsettle, hitems]
      exact reduceAll_mismatch hopened hpairs

/-- A closing parenthesis without partner is rejected, and the failure is the one of a bracket scan
    that has read a term before it. -/
theorem Tracks.acceptClosing_error {error : SyntaxError}
    (h : state.Tracks opened reader) (hsound : reader.Sound previous)
    (hallowed : Grammar.allows previous .closing = true)
    (hstep : Nesting.step (some .term) opened next = .error error) :
    ∃ log, state.acceptClosing next = .error ⟨error, log⟩ := by
  obtain ⟨hkind, ⟨rfl, rfl⟩ | ⟨innermost, outer, rfl, hpairs, rfl⟩⟩ :=
    Nesting.step_error_cases hstep
  · obtain ⟨id, forest, log, hsettle⟩ := h.exists_stray hsound hkind hallowed
    refine ⟨log, ?_⟩
    rw [State.acceptClosing, hsettle]
    simp only [if_true]
    rfl
  · obtain ⟨hopened, between, below, forest, log, hsettle⟩ :=
      h.exists_mismatch hsound hkind hallowed hpairs
    refine ⟨log, ?_⟩
    rw [State.acceptClosing, hsettle]
    simp only [if_true]
    cases between with
    | none => simp [rejectClosing, hopened, fail]
    | some id => simp [rejectClosing, hopened, fail]

end State

end OperatorTerms
