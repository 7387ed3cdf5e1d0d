/-
Module: OperatorTerms.Proofs.LogOfParse
Layer: Proofs
Purpose: The log of a parse retells how the tree came about. Every token is recorded once. A closing
  parenthesis is met in one of three situations, which the token before it tells apart: its partner
  is directly below it, or a semi-colon is, which is dropped, or a term; so it leaves one record of
  the group that it ends, before which there may be one of the semi-colon. As reduction never gets
  past the innermost open parenthesis, the partner is the one that the bracket scan closes.
Imports: OperatorTerms.Proofs.BracketBlame, OperatorTerms.Proofs.RecordedSteps,
  OperatorTerms.Proofs.StackShape, OperatorTerms.Proofs.WalkIteration
Main exports: Record.ofGroup, Record.ofNeighbours?, EndsGroup, Recounts,
  State.Follows.withoutClosing, State.Follows.notes_acceptClosing, State.Recorded, log_of_parse
-/
import OperatorTerms.Proofs.BracketBlame
import OperatorTerms.Proofs.RecordedSteps
import OperatorTerms.Proofs.StackShape
import OperatorTerms.Proofs.WalkIteration

namespace OperatorTerms

namespace Record

/-- The label of the token whose taking is recorded. -/
def shifted? : Record → Option String
  | shift label _ => some label
  | _ => none

/-- Whether a record says that a group was ended. -/
def isGroup : Record → Bool
  | reduceGroup .. | reduceEmptyGroup .. => true
  | _ => false

/-- Whether a record says that a semi-colon was dropped. -/
def isDrop : Record → Bool
  | dropSemicolon .. => true
  | _ => false

/-- The record of a group with the given tokens between its parentheses. -/
def ofGroup (opened closed : Token) (inner : List Placed) : Record :=
  if inner.isEmpty then
    .reduceEmptyGroup opened.label closed.label
  else
    .reduceGroup opened.label closed.label

/-- The record of dropping the first of two neighbours, which is a semi-colon just before a closing
    parenthesis. -/
def ofNeighbours? (pair : Placed × Placed) : Option Record :=
  if pair.1.token.kind == .semicolon && pair.2.token.kind == .closing then
    some (.dropSemicolon pair.1.token.label pair.2.token.label)
  else
    none

end Record

/-- The record is that of the group which the parenthesis ends. It names the partner, with
    well-nested tokens between the two, and says whether there are any. -/
def EndsGroup (placed : List Placed) (closed : Placed) (record : Record) : Prop :=
  ∃ front opened inner back, placed = front ++ opened :: (inner ++ closed :: back) ∧
    opened.token.pairsWith closed.token = true ∧ WellNested (inner.map Placed.token) ∧
      record = .ofGroup opened.token closed.token inner

/-- The records retell what became of the tokens of a sequence. -/
structure Recounts (placed : List Placed) (records : List Record) : Prop where
  /-- Every token is taken once, in the order of the sequence. -/
  shifts : records.filterMap Record.shifted? = placed.map fun taken => taken.token.label
  /-- Every closing parenthesis ends one group, in the order of the sequence. -/
  groups : List.Forall₂ (EndsGroup placed) (placed.filter (·.token.kind == .closing))
    (records.filter Record.isGroup)
  /-- The semi-colons directly before closing parentheses are dropped, each once and no others. -/
  drops : records.filter Record.isDrop =
    (placed.zip placed.tail).filterMap Record.ofNeighbours?

variable {placed before after : List Placed} {records : List Record}
  {next opened closed innermost : Placed} {record : Record} {previous : Option Kind}
  {outer opens : List Placed} {reader : Reader} {state state' : State} {tokens : List Token}
  {tree : Tree}

/-! ### Longer sequences -/

theorem EndsGroup.append (h : EndsGroup placed closed record) (others : List Placed) :
    EndsGroup (placed ++ others) closed record := by
  obtain ⟨front, opened, inner, back, rfl, hpairs, hinner, hrecord⟩ := h
  exact ⟨front, opened, inner, back ++ others, by simp, hpairs, hinner, hrecord⟩

/-- One more token has the token before it for a neighbour. -/
theorem zip_tail_append (placed : List Placed) (next : Placed) :
    (placed ++ [next]).zip (placed ++ [next]).tail =
      placed.zip placed.tail ++ (placed.getLast?.map (·, next)).toList := by
  induction placed with
  | nil => rfl
  | cons first rest ih =>
      cases rest with
      | nil => rfl
      | cons second rest => exact congrArg ((first, second) :: ·) ih

/-- The record of dropping the last token, if it is a semi-colon and the next token closes a
    group. -/
def Record.ofLast? (placed : List Placed) (next : Placed) : Option Record :=
  placed.getLast?.bind fun last => ofNeighbours? (last, next)

theorem Record.ofNeighbours?_eq_some {pair : Placed × Placed}
    (h : Record.ofNeighbours? pair = some record) :
    pair.2.token.kind = .closing ∧
      record = .dropSemicolon pair.1.token.label pair.2.token.label := by
  rw [ofNeighbours?] at h
  split at h
  · rename_i hkinds
    cases h
    exact ⟨(by simpa using hkinds : _ ∧ _).2, rfl⟩
  · contradiction

theorem Record.ofLast?_eq_some (h : Record.ofLast? placed next = some record) :
    next.token.kind = .closing ∧ ∃ label, record = .dropSemicolon label next.token.label := by
  obtain ⟨last, -, hrecord⟩ := Option.bind_eq_some_iff.1 h
  obtain ⟨hkind, rfl⟩ := ofNeighbours?_eq_some hrecord
  exact ⟨hkind, _, rfl⟩

theorem Record.sort_of_ofLast? (placed : List Placed) (next : Placed) :
    ∀ record ∈ (ofLast? placed next).toList,
      record.shifted? = none ∧ record.isGroup = false ∧ record.isDrop = true := by
  intro record hmem
  obtain ⟨-, label, rfl⟩ := ofLast?_eq_some (Option.mem_toList.1 hmem)
  exact ⟨rfl, rfl, rfl⟩

theorem Record.sort_of_ofGroup (opened closed : Token) (inner : List Placed) :
    (ofGroup opened closed inner).shifted? = none ∧
      (ofGroup opened closed inner).isGroup = true ∧
        (ofGroup opened closed inner).isDrop = false := by
  rw [ofGroup]
  split <;> exact ⟨rfl, rfl, rfl⟩

namespace Recounts

theorem initial (count : Nat) : Recounts [] [.parsing count] := ⟨rfl, .nil, rfl⟩

/-- What is recorded about one more token goes behind the other records. -/
theorem append {others : List Record} (h : Recounts placed records)
    (hshift : others.filterMap Record.shifted? = [next.token.label])
    (hgroup : List.Forall₂ (EndsGroup (placed ++ [next])) ([next].filter (·.token.kind == .closing))
      (others.filter Record.isGroup))
    (hdrop : others.filter Record.isDrop = (Record.ofLast? placed next).toList) :
    Recounts (placed ++ [next]) (records ++ others) := by
  constructor
  · rw [List.filterMap_append, h.shifts, hshift, List.map_append, List.map_singleton]
  · rw [List.filter_append, List.filter_append]
    exact List.rel_append (h.groups.imp fun _ _ hends => hends.append [next]) hgroup
  · have hlast : (placed.getLast?.map (·, next)).toList.filterMap Record.ofNeighbours? =
        (Record.ofLast? placed next).toList := by
      rw [Record.ofLast?]
      cases placed.getLast? with
      | none => rfl
      | some last => cases hrecord : Record.ofNeighbours? (last, next) <;> simp [hrecord]
    rw [List.filter_append, h.drops, hdrop, zip_tail_append, List.filterMap_append, hlast]

/-- A token that is no closing parenthesis is taken, and that is all. -/
theorem plain (h : Recounts placed records) (hkind : next.token.kind ≠ .closing) (items : Nat) :
    Recounts (placed ++ [next]) (records ++ [.shift next.token.label items]) := by
  refine h.append rfl ?_ ?_
  · simp [hkind, Record.isGroup]
  · cases hlast : Record.ofLast? placed next with
    | none => rfl
    | some record => exact absurd (Record.ofLast?_eq_some hlast).1 hkind

/-- A closing parenthesis ends a group, after a semi-colon directly before it is dropped. -/
theorem closing (h : Recounts (before ++ opened :: after) records)
    (hpairs : opened.token.pairsWith closed.token = true)
    (hafter : WellNested (after.map Placed.token)) (items : Nat) :
    Recounts (before ++ opened :: after ++ [closed])
      (records ++ (.shift closed.token.label items ::
        ((Record.ofLast? (before ++ opened :: after) closed).toList ++
          [.ofGroup opened.token closed.token after]))) := by
  obtain ⟨hshift, hgroup, hdrop⟩ := Record.sort_of_ofGroup opened.token closed.token after
  have hlast := Record.sort_of_ofLast? (before ++ opened :: after) closed
  have hends : EndsGroup (before ++ opened :: after ++ [closed]) closed
      (.ofGroup opened.token closed.token after) :=
    ⟨before, opened, after, [], by simp, hpairs, hafter, rfl⟩
  refine h.append ?_ ?_ ?_
  · have hnone := List.filterMap_eq_nil_iff.2 fun record hmem => (hlast record hmem).1
    have htaken : (Record.shift closed.token.label items).shifted? = some closed.token.label := rfl
    rw [List.filterMap_cons_some htaken, List.filterMap_append, hnone, List.nil_append,
      List.filterMap_cons_none hshift, List.filterMap_nil]
  · have hnone : (Record.ofLast? (before ++ opened :: after) closed).toList.filter
        Record.isGroup = [] :=
      List.filter_eq_nil_iff.2 fun record hmem => Bool.eq_false_iff.1 (hlast record hmem).2.1
    have hclosing : [closed].filter (·.token.kind == .closing) = [closed] := by
      simp [(Token.kind_of_pairsWith hpairs).2]
    rw [hclosing, List.filter_cons_of_neg Bool.false_ne_true, List.filter_append, hnone,
      List.nil_append, List.filter_cons_of_pos hgroup, List.filter_nil]
    exact .cons hends .nil
  · have hself := List.filter_eq_self.2 fun record hmem => (hlast record hmem).2.2
    rw [List.filter_cons_of_neg Bool.false_ne_true, List.filter_append, hself,
      List.filter_cons_of_neg (Bool.eq_false_iff.1 hdrop), List.filter_nil, List.append_nil]

end Recounts

/-! ### Closing parentheses -/

/-- The last token opens a group only if nothing has been read behind the parenthesis that is
    innermost. -/
theorem opening_iff_of_getLast? {last : Placed} (hkind : innermost.token.kind = .opening)
    (hafter : WellNested (after.map Placed.token))
    (hlast : (before ++ innermost :: after).getLast? = some last) :
    last.token.kind = .opening ↔ after = [] := by
  rcases List.eq_nil_or_concat after with rfl | ⟨front, other, rfl⟩
  · have hinnermost : innermost = last := by simpa using hlast
    simp [← hinnermost, hkind]
  · rw [List.concat_eq_append] at hafter hlast ⊢
    rw [← List.cons_append, ← List.append_assoc, List.getLast?_concat] at hlast
    cases hlast
    constructor
    · intro hopening
      obtain ⟨inner, closed, rest, hnil, -⟩ := hafter.exists_partner hopening
      simp at hnil
    · intro hnil
      simp at hnil

/-- A stack of sound segments has no closing parenthesis on it. -/
theorem Layers.kind_ne_closing {segment : Segment} {around : List (Placed × Segment)}
    (htop : segment.Sound)
    (haround : ∀ entry ∈ around, entry.1.token.kind = .opening ∧ entry.2.Sound) :
    ∀ item ∈ segment.items ++ itemsBelow around, item.kind ≠ .closing := by
  have hsegment {segment : Segment} (hsound : segment.Sound) :
      ∀ item ∈ segment.items, item.kind ≠ .closing := by
    intro item hmem hkind
    have hbracket := Segment.isBracket_eq_false hsound item hmem
    rw [hkind] at hbracket
    contradiction
  rw [List.forall_mem_append, itemsBelow]
  refine ⟨hsegment htop, ?_⟩
  intro item hmem
  obtain ⟨entry, hentry, hmem⟩ := List.mem_flatMap.1 hmem
  obtain ⟨hkind, hsound⟩ := haround entry hentry
  rcases List.mem_cons.1 hmem with rfl | hmem
  · rw [Item.kind, hkind]
    decide
  · exact hsegment hsound item hmem

namespace State

section Groups

variable {below : List Item} {forest : Forest} {log : List Record} {id : NodeId}

theorem notes_group (hpairs : opened.token.pairsWith closed.token = true)
    (hopen : WithoutClosing ⟨.term id :: .token opened :: below, forest, log⟩) :
    Notes [.reduceGroup opened.token.label closed.token.label]
      ⟨.term id :: .token opened :: below, forest, log⟩
      (reduceAll ⟨.token closed :: .term id :: .token opened :: below, forest, log⟩) := by
  have hbelow : WithoutClosing ⟨.term id :: below, forest,
      .reduceGroup opened.token.label closed.token.label :: log⟩ := hopen.mono (by simp +contextual)
  rw [reduceAll_pair hpairs]
  exact (Notes.single _ (.term id :: below) rfl).trans (notes_reduceAll hbelow).1

theorem notes_emptyGroup (hpairs : opened.token.pairsWith closed.token = true)
    (hopen : WithoutClosing ⟨.token opened :: below, forest, log⟩) :
    Notes [.reduceEmptyGroup opened.token.label closed.token.label]
      ⟨.token opened :: below, forest, log⟩
      (reduceAll ⟨.token closed :: .token opened :: below, forest, log⟩) := by
  have hbelow : WithoutClosing ⟨.term forest.size :: below, forest.leaf .term Term.emptyGroupLabel,
      .reduceEmptyGroup opened.token.label closed.token.label :: log⟩ :=
    hopen.mono (by simp +contextual)
  rw [reduceAll_emptyPair hpairs]
  exact (Notes.single _ below rfl).trans
    ((Notes.leaf _ (.term forest.size :: below) rfl).trans (notes_reduceAll hbelow).1)

end Groups

namespace Follows

theorem withoutClosing (h : state.Follows previous opens reader) : state.WithoutClosing := by
  obtain ⟨layers, hstack, -, -, htop, haround⟩ := h.exists_layers
  intro placed hmem
  rw [hstack] at hmem
  exact Layers.kind_ne_closing htop haround _ hmem

/-- What is directly below a closing parenthesis depends on the token before it: the innermost open
    parenthesis, a semi-colon behind its statement, or the term that reduction leaves. -/
theorem closing_cases (h : state.Follows previous (innermost :: outer) reader)
    (hallowed : Grammar.allows previous .closing = true) :
    (previous = some .opening ∧ ∃ below, state.stack = .token innermost :: below) ∨
      (previous = some .semicolon ∧ ∃ semicolon id below, semicolon.token.kind = .semicolon ∧
        state.stack = .token semicolon :: .term id :: .token innermost :: below) ∨
      (previous ≠ some .opening ∧ previous ≠ some .semicolon ∧ ∃ id below,
        state.reduceAll.stack = .term id :: .token innermost :: below) := by
  obtain ⟨htracks, hphase, hlevel, haround⟩ := h
  rcases reader with ⟨reading, around⟩
  rcases hphase.closing_cases hallowed with
    ⟨hprevious, rfl⟩ | ⟨hprevious, operand, token, hkind, rfl⟩ |
      ⟨hopening, hsemicolon, chain, operand, rfl⟩
  · obtain ⟨segment, below, hstack, -, -, hopened, hreading, -⟩ := htracks.eq_waiting
    cases Segment.of_reading_empty hreading
    obtain ⟨entry, below, rfl, rfl, -⟩ := List.map_eq_cons_iff.1 hopened.symm
    exact .inl ⟨hprevious, _, hstack⟩
  · obtain ⟨segment, below, hstack, -, -, hopened, hreading, -⟩ := htracks.eq_waiting
    obtain ⟨id, semicolon, rfl, -, rfl⟩ := Segment.of_reading_separated hreading
    obtain ⟨entry, below, rfl, rfl, -⟩ := List.map_eq_cons_iff.1 hopened.symm
    exact .inr (.inl ⟨hprevious, semicolon, id, _, hkind, hstack⟩)
  · have hreduced := htracks.reduceAll hlevel.chain fun entry hentry => (haround entry hentry).1
    obtain ⟨draft, links, below, hstate, -, -, -, hopened, hlinks, -⟩ := hreduced.eq_atop
    cases List.map_eq_nil_iff.1 hlinks.symm
    obtain ⟨entry, below, rfl, rfl, -⟩ := List.map_eq_cons_iff.1 hopened.symm
    exact .inr (.inr ⟨hopening, hsemicolon, draft.root, _, congrArg State.stack hstate⟩)

/-- A closing parenthesis leaves the record of its group, and before it that of the semi-colon that
    is directly below it, if there is one. -/
theorem notes_acceptClosing (h : state.Follows previous (innermost :: outer) reader)
    (hallowed : Grammar.allows previous .closing = true)
    (hpairs : innermost.token.pairsWith next.token = true)
    (haccept : state.acceptClosing next = .ok state') :
    (previous = some .opening ∧
      Notes [.reduceEmptyGroup innermost.token.label next.token.label] state state') ∨
    (previous = some .semicolon ∧ ∃ semicolon, state.stack.head? = some (.token semicolon) ∧
      Notes [.dropSemicolon semicolon.token.label next.token.label,
        .reduceGroup innermost.token.label next.token.label] state state') ∨
    (previous ≠ some .opening ∧ previous ≠ some .semicolon ∧
      Notes [.reduceGroup innermost.token.label next.token.label] state state') := by
  have hopen := h.withoutClosing
  obtain rfl := eq_of_acceptClosing haccept
  rcases h.closing_cases hallowed with ⟨hprevious, below, hstack⟩ |
    ⟨hprevious, semicolon, id, below, hkind, hstack⟩ | ⟨hopening, hsemicolon, id, below, hstack⟩
  · rcases state with ⟨stack, forest, log⟩
    cases hstack
    rw [reduceAll_of_token (hopen innermost List.mem_cons_self)]
    exact .inl ⟨hprevious, notes_emptyGroup hpairs hopen⟩
  · rcases state with ⟨stack, forest, log⟩
    cases hstack
    have hbelow : WithoutClosing ⟨.term id :: .token innermost :: below, forest,
        .dropSemicolon semicolon.token.label next.token.label :: log⟩ :=
      hopen.mono (by simp +contextual)
    rw [reduceAll_of_token (hopen semicolon List.mem_cons_self), push,
      reduceAll_semicolon hkind (Token.kind_of_pairsWith hpairs).2]
    exact .inr (.inl ⟨hprevious, semicolon, rfl,
      (Notes.single _ (.term id :: .token innermost :: below) rfl).trans
        (notes_group hpairs hbelow)⟩)
  · obtain ⟨hreduced, hbelow⟩ := notes_reduceAll hopen
    generalize state.reduceAll = reduced at hstack hreduced hbelow
    rcases reduced with ⟨stack, forest, log⟩
    cases hstack
    exact .inr (.inr ⟨hopening, hsemicolon, hreduced.trans (notes_group hpairs hbelow)⟩)

/-- Said of the tokens read so far: the group is empty if the last one opened it, and the semi-colon
    is the last one. -/
theorem notes_closing (h : state.Follows (lastKind none ((before ++ innermost :: after).map
      Placed.token)) (innermost :: outer) reader)
    (hallowed : Grammar.allows (lastKind none ((before ++ innermost :: after).map
      Placed.token)) .closing = true)
    (hpairs : innermost.token.pairsWith next.token = true)
    (hafter : WellNested (after.map Placed.token))
    (htop : ∀ last ∈ (before ++ innermost :: after).getLast?, last.token.kind = .semicolon →
      state.stack.head? = some (.token last))
    (haccept : state.acceptClosing next = .ok state') :
    Notes ((Record.ofLast? (before ++ innermost :: after) next).toList ++
      [.ofGroup innermost.token next.token after]) state state' := by
  obtain ⟨hopening, hclosing⟩ := Token.kind_of_pairsWith hpairs
  have hnotes := h.notes_acceptClosing hallowed hpairs haccept
  cases hlast : (before ++ innermost :: after).getLast? with
  | none => simp at hlast
  | some last =>
      have hprevious : lastKind none ((before ++ innermost :: after).map Placed.token) =
          some last.token.kind := lastKind_of_getLast? (by rw [List.getLast?_map, hlast]; rfl)
      have hempty := opening_iff_of_getLast? hopening hafter hlast
      rw [hprevious] at hnotes
      simp only [ne_eq, Option.some.injEq] at hnotes
      rcases hnotes with
        ⟨hkind, hnotes⟩ | ⟨hkind, semicolon, hhead, hnotes⟩ | ⟨hkind, hother, hnotes⟩
      · cases hempty.1 hkind
        simpa [Record.ofLast?, hlast, Record.ofNeighbours?, hkind, Record.ofGroup] using hnotes
      · have hne : after ≠ [] := fun hnil => by simp [hempty.2 hnil] at hkind
        rw [htop last hlast hkind] at hhead
        cases hhead
        simpa [Record.ofLast?, hlast, Record.ofNeighbours?, hkind, hclosing, Record.ofGroup, hne]
          using hnotes
      · have hne : after ≠ [] := fun hnil => hkind (hempty.2 hnil)
        simpa [Record.ofLast?, hlast, Record.ofNeighbours?, hother, Record.ofGroup, hne]
          using hnotes

end Follows

/-! ### Runs -/

theorem stack_of_accept_semicolon (haccept : state.accept next = .ok state')
    (hkind : next.token.kind = .semicolon) : state'.stack.head? = some (.token next) := by
  unfold accept at haccept
  split at haccept
  · simp only [hkind] at haccept
    cases haccept
    rfl
  · exact absurd haccept (reject_ne_ok _ _ _)

theorem acceptClosing_of_accept (haccept : state.accept next = .ok state')
    (hkind : next.token.kind = .closing) :
    (state.note (.shift next.token.label state.stack.length)).acceptClosing next = .ok state' := by
  unfold accept at haccept
  split at haccept
  · simpa only [hkind] using haccept
  · exact absurd haccept (reject_ne_ok _ _ _)

/-- The records made so far retell the tokens taken so far, and the nodes built from them. -/
structure Recorded (placed : List Placed) (state : State) : Prop where
  told : state.Told
  others : Recounts placed (state.log.reverse.filter (!·.isOperator))
  /-- A semi-colon that was taken last is on top of the stack. -/
  semicolon : ∀ last ∈ placed.getLast?, last.token.kind = .semicolon →
    state.stack.head? = some (.token last)

namespace Recorded

theorem initial (count : Nat) : Recorded [] (State.initial count) :=
  ⟨rfl, .initial count, by simp⟩

theorem accept (h : state.Recorded placed)
    (hfollows : state.Follows (lastKind none (placed.map Placed.token)) opens reader)
    (hopen : LeftOpen placed opens) (haccept : state.accept next = .ok state') :
    state'.Recorded (placed ++ [next]) := by
  have hsemicolon : ∀ last ∈ (placed ++ [next]).getLast?, last.token.kind = .semicolon →
      state'.stack.head? = some (.token last) := by
    intro last hlast hkind
    rw [List.getLast?_concat] at hlast
    cases hlast
    exact stack_of_accept_semicolon haccept hkind
  by_cases hkind : next.token.kind = .closing
  · obtain ⟨hallowed, opens', hstep⟩ := hfollows.of_accept haccept
    rcases Nesting.step_cases hstep with ⟨hother, -⟩ | ⟨innermost, hpairs, rfl⟩ | ⟨hother, -⟩
    · rw [hkind] at hother
      contradiction
    · cases hopen with
      | @cons before after _ _ _ _ hafter =>
          have hshift := Notes.single state state.stack
            (rfl : (Record.shift next.token.label state.stack.length).isOperator = false)
          have hnotes := hshift.trans (Follows.notes_closing
            ⟨hfollows.tracks.note _, hfollows.sound⟩ (hkind ▸ hallowed) hpairs hafter h.semicolon
              (acceptClosing_of_accept haccept hkind))
          refine ⟨hnotes.told h.told, ?_, hsemicolon⟩
          rw [hnotes.others]
          exact h.others.closing hpairs hafter _
    · rw [hkind] at hother
      contradiction
  · have hnotes := notes_accept hfollows.withoutClosing hkind haccept
    refine ⟨hnotes.told h.told, ?_, hsemicolon⟩
    rw [hnotes.others]
    exact h.others.plain hkind _

theorem acceptAll {rest : List Placed} (h : state.Recorded placed)
    (hfollows : state.Follows (lastKind none (placed.map Placed.token)) opens reader)
    (hopen : LeftOpen placed opens) (haccept : state.acceptAll rest = .ok state') :
    state'.Recorded (placed ++ rest) ∧ state'.WithoutClosing := by
  induction rest generalizing state placed opens reader with
  | nil =>
      cases haccept
      rw [List.append_nil]
      exact ⟨h, hfollows.withoutClosing⟩
  | cons next rest ih =>
      obtain ⟨between, hnext, haccept⟩ := bind_eq_ok_iff.1 haccept
      obtain ⟨hallowed, opens', hstep⟩ := hfollows.of_accept hnext
      obtain ⟨between', reader', hnext', -, hfollows'⟩ := hfollows.accept hallowed hstep
      cases hnext.symm.trans hnext'
      have hkind : lastKind none ((placed ++ [next]).map Placed.token) =
          some next.token.kind := by
        rw [List.map_append, lastKind_append]
        rfl
      rw [← hkind] at hfollows'
      have hrest := ih (h.accept hfollows hopen hnext) hfollows' (hopen.step hstep) haccept
      rwa [List.append_assoc] at hrest

end Recorded

/-- A parse that ends with a tree shows it in the last record. -/
theorem log_finish {last : Placed} (h : (state.finish last).result = .ok tree) :
    (state.finish last).log = state.complete.log.reverse ++ [.parsed tree.display] := by
  simp only [finish] at h ⊢
  split at h
  · rename_i root hstack
    split at h
    · rename_i hlast
      cases h
      simp only [hstack, hlast, if_true, note, List.reverse_cons]
    · contradiction
  · contradiction

end State

/-! ### Whole sequences -/

/-- The records of operators tell nothing of the tokens. -/
theorem Recounts.of_filter (h : Recounts placed (records.filter (!·.isOperator))) :
    Recounts placed records := by
  obtain ⟨hshifts, hgroups, hdrops⟩ := h
  rw [List.filterMap_filter] at hshifts
  rw [List.filter_filter] at hgroups hdrops
  have hshifted : records.filterMap Record.shifted? = records.filterMap
      fun record => if !record.isOperator then record.shifted? else none :=
    List.filterMap_congr fun record _ => by cases record <;> rfl
  have hgroup : records.filter Record.isGroup =
      records.filter fun record => record.isGroup && !record.isOperator :=
    List.filter_congr fun record _ => by cases record <;> rfl
  have hdrop : records.filter Record.isDrop =
      records.filter fun record => record.isDrop && !record.isOperator :=
    List.filter_congr fun record _ => by cases record <;> rfl
  exact ⟨hshifted ▸ hshifts, hgroup ▸ hgroups, hdrop ▸ hdrops⟩

/-- So does that of the tree. -/
theorem Recounts.parsed (h : Recounts placed records) (display : String) :
    Recounts placed (records ++ [.parsed display]) := by
  constructor
  · rw [List.filterMap_append, h.shifts]
    exact List.append_nil _
  · rw [List.filter_append]
    exact (List.append_nil _).symm ▸ h.groups
  · rw [List.filter_append, h.drops]
    exact List.append_nil _

/-- The log of a parse retells the sequence, and how the tree was built from it: every operator of
    the tree has one record, and has it after the operators below it. -/
theorem log_of_parse (hparse : parse tokens = .ok tree) :
    Recounts (Placed.all tokens) (parseTraced tokens).log ∧
      ∃ built : List NodeId,
        built.Perm (tree.postOrder.filter fun id => (tree.node id).isOperator) ∧
        (parseTraced tokens).log.filter Record.isOperator =
          built.map (fun id => (tree.node id).record) ∧
        built.Pairwise fun earlier later => later ∉ tree.forest.postOrder earlier := by
  obtain ⟨hne, state, haccept⟩ := acceptAll_of_parse hparse
  obtain ⟨last, hlast, -⟩ := exists_last hne
  obtain ⟨⟨htold, hothers, -⟩, hopen⟩ := (State.Recorded.initial tokens.length).acceptAll
    (.initial tokens.length) (.nil .nil) haccept
  have hresult := (parse_of_acceptAll hlast haccept).symm.trans hparse
  have hcomplete := State.notes_complete hopen
  have hforest := (State.finish_eq_ok hresult).2
  have hlog : (parseTraced tokens).log =
      state.complete.log.reverse ++ [.parsed tree.display] := by
    simp only [parseTraced, hlast, haccept]
    exact State.log_finish hresult
  rw [hlog]
  constructor
  · apply Recounts.of_filter
    rw [List.filter_append, hcomplete.others, List.append_nil]
    exact hothers.parsed tree.display
  · refine ⟨tree.forest.operators, ?_, ?_, ?_⟩
    · exact ((whole_of_parse hparse).perm_postOrder.filter _).symm
    · have hrecords : state.complete.log.reverse.filter Record.isOperator = tree.forest.records :=
        (hcomplete.told htold).trans (congrArg Forest.records hforest)
      rw [List.filter_append, hrecords]
      exact List.append_nil _
    · refine (List.pairwise_lt_range.filter _).imp fun hlt hmem => ?_
      rw [Forest.postOrder_eq_order] at hmem
      exact Nat.not_le_of_lt hlt (Forest.le_of_mem_order hmem)

/-- A group that ends with a semi-colon below a prefix operator, and a group with nothing in it. -/
theorem log_of_groups :
    ∃ tokens tree, tokens = [⟨.prefixOp, "p1", ""⟩, ⟨.opening, "b2", ""⟩, ⟨.var, "v3", ""⟩,
        ⟨.semicolon, "s4", ""⟩, ⟨.closing, "B5", ""⟩, ⟨.dyad, "d6", ""⟩, ⟨.opening, "b7", ""⟩,
        ⟨.closing, "B8", ""⟩] ∧
      parse tokens = .ok tree ∧
      (parseTraced tokens).log = [.parsing 8, .shift "p1" 0, .shift "b2" 1, .shift "v3" 2,
        .shift "s4" 3, .shift "B5" 4, .dropSemicolon "s4" "B5", .reduceGroup "b2" "B5",
        .reduceUnary "p1", .shift "d6" 1, .shift "b7" 2, .shift "B8" 3,
        .reduceEmptyGroup "b7" "B8", .reduceInfix "d6", .parsed "d6(p1(v3), empty2)"] ∧
      Recounts (Placed.all tokens) (parseTraced tokens).log ∧
      ∃ built : List NodeId, built.Perm [1, 3] ∧
        [.reduceUnary "p1", .reduceInfix "d6"] = built.map (fun id => (tree.node id).record) ∧
        built.Pairwise fun earlier later => later ∉ tree.forest.postOrder earlier := by
  have hparse : parse [⟨.prefixOp, "p1", ""⟩, ⟨.opening, "b2", ""⟩, ⟨.var, "v3", ""⟩,
      ⟨.semicolon, "s4", ""⟩, ⟨.closing, "B5", ""⟩, ⟨.dyad, "d6", ""⟩, ⟨.opening, "b7", ""⟩,
      ⟨.closing, "B8", ""⟩] =
      .ok ⟨⟨#[⟨.var, "v3", [], some 1⟩, ⟨.prefixOp, "p1", [0], some 3⟩,
        ⟨.term, "empty2", [], some 3⟩, ⟨.dyad, "d6", [1, 2], none⟩]⟩, 3⟩ := by
    decide +kernel
  obtain ⟨hrecounts, built, hperm, hrecords, horder⟩ := log_of_parse hparse
  refine ⟨_, _, rfl, hparse, by decide +kernel, hrecounts, built, ?_, ?_, horder⟩
  · exact hperm.trans (.of_eq (by decide +kernel))
  · rw [← hrecords]
    decide +kernel

end OperatorTerms
