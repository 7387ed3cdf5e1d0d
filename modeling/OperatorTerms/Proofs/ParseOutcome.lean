/-
Module: OperatorTerms.Proofs.ParseOutcome
Layer: Proofs
Purpose: How a parse ends. After the last token a single term is left on the stack exactly when no
  parenthesis is open and the last token may close an expression; otherwise the sequence is
  incomplete. So the parser has a tree for the valid sequences only, and the term of that tree is
  what a reader has in the end, which is the meaning of the sequence.
Imports: OperatorTerms.Parse, OperatorTerms.Proofs.ParserRun
Main exports: State.Follows.finish_ok, State.Follows.finish_incomplete, exists_tree_of_validate,
  validate_of_parse, validate_eq_ok_iff_parse, meaning?_of_parse
-/
import OperatorTerms.Parse
import OperatorTerms.Proofs.ParserRun

namespace OperatorTerms

namespace State

variable {state : State} {previous : Option Kind} {opened : List Placed} {reader : Reader}
  {last : Placed}

/-! ### Completing the stack -/

theorem complete_of_term {id : NodeId} {below : List Item} (h : state.stack = .term id :: below) :
    state.complete = state.reduceAll := by
  rw [complete, h]

theorem complete_of_token {top : Placed} {below : List Item}
    (h : state.stack = .token top :: below) (hsemicolon : top.token.kind ≠ .semicolon)
    (hclosing : top.token.kind ≠ .closing) : state.complete = state := by
  rcases state with ⟨stack, forest, log⟩
  cases h
  simp only [complete, beq_iff_eq, if_neg hsemicolon]
  exact reduceAll_of_token hclosing

theorem complete_of_semicolon {top : Placed} {below : List Item}
    (h : state.stack = .token top :: below) (hsemicolon : top.token.kind = .semicolon) :
    state.complete = reduceAll ⟨below, state.forest, state.log⟩ := by
  simp only [complete, h, hsemicolon, beq_self_eq_true, if_true]

namespace Follows

/-- After a token that may close an expression the value of the level is on top, directly above
    the levels around. -/
theorem complete_of_closes {kind : Kind} (h : state.Follows (some kind) opened reader)
    (hcloses : Grammar.closes (some kind) = true) :
    ∃ root below, state.complete.stack = .term root :: Layers.itemsBelow below ∧
      reader.reading.value? = some (state.complete.forest.term root) ∧
        opened = below.map Prod.fst := by
  obtain ⟨htracks, hphase, hlevel, haround⟩ := h
  have haround : ∀ entry ∈ reader.around, entry.1.kind = .opening :=
    fun entry hentry => (haround entry hentry).1
  generalize hprevious : some kind = previous at hphase
  cases hphase with
  | separated hsemicolon =>
      obtain ⟨segment, below, hstack, -, -, rfl, hreading, rfl⟩ := htracks.eq_waiting
      obtain ⟨id, placed, rfl, rfl, rfl⟩ := Segment.of_reading_separated hreading
      have hbounded := @reduceAll_atop_bounded ⟨id, state.forest, state.log⟩ _
        (bounded_itemsBelow haround)
      have hcomplete : state.complete =
          ⟨.term id :: Layers.itemsBelow below, state.forest, state.log⟩ :=
        (complete_of_semicolon hstack hsemicolon).trans hbounded
      rw [hcomplete]
      exact ⟨id, below, rfl, rfl, rfl⟩
  | complete _ =>
      obtain ⟨draft, links, below, hstate, -⟩ := htracks.eq_atop
      have hcomplete : state.complete = state.reduceAll := by
        rw [hstate]
        exact complete_of_term rfl
      obtain ⟨draft, links, below, hreduce, hdraft, -, -, rfl, hlinks, -⟩ :=
        (htracks.reduceAll hlevel.chain haround).eq_atop
      cases List.map_eq_nil_iff.1 hlinks.symm
      rw [hcomplete]
      refine ⟨draft.root, below, ?_, ?_, rfl⟩
      · exact congrArg State.stack hreduce
      · rw [hreduce]
        exact congrArg some hdraft.term_eq.symm
  | start => contradiction
  | opened | prefixed =>
      cases hprevious
      exact absurd hcloses (by decide)
  | combined hkind _ =>
      cases hprevious
      rcases hkind with rfl | rfl <;> exact absurd hcloses (by decide)

/-- After any other token that token is still on top. -/
theorem complete_of_not_closes {kind : Kind} (h : state.Follows (some kind) opened reader)
    (hcloses : Grammar.closes (some kind) = false) :
    ∃ top below, state.complete.stack = .token top :: below := by
  obtain ⟨⟨layers, hshows, -, rfl⟩, hsound⟩ := h
  have htop := hshows.topKind?_eq hsound
  have hcurrent : ¬ layers.top.current.isSome = true := by
    intro hcurrent
    obtain ⟨other, hother, hkind⟩ :=
      hsound.phase.kind_of_current (by simpa [Layers.reader, Segment.reading])
    cases hother
    rcases hkind with rfl | rfl | rfl <;> exact absurd hcloses (by decide)
  rw [if_neg hcurrent, topKind?, Option.map_eq_some_iff] at htop
  obtain ⟨item, hitem, hkind⟩ := htop
  obtain ⟨below, hstack⟩ := List.head?_eq_some_iff.1 hitem
  cases item with
  | term id => exact absurd hkind.symm hsound.phase.ne_term
  | token top =>
      have hsemicolon : top.token.kind ≠ .semicolon := by
        intro htop
        rw [← hkind, Item.kind, htop] at hcloses
        exact absurd hcloses (by decide)
      have hclosing : top.token.kind ≠ .closing := by
        intro htop
        rw [← hkind, Item.kind, htop] at hcloses
        exact absurd hcloses (by decide)
      rw [complete_of_token hstack hsemicolon hclosing]
      exact ⟨top, below, hstack⟩

/-! ### The outcome -/

/-- Where an expression may end, the parse ends with a tree, whose term is the value of what was
    read. -/
theorem finish_ok (h : state.Follows (some last.token.kind) [] reader)
    (hcloses : Grammar.closes (some last.token.kind) = true) :
    ∃ tree, (state.finish last).result = .ok tree ∧ reader.value? = some tree.term := by
  obtain ⟨root, below, hstack, hvalue, hbelow⟩ := h.complete_of_closes hcloses
  cases List.map_eq_nil_iff.1 hbelow.symm
  refine ⟨⟨state.complete.forest, root⟩, ?_, ?_⟩
  · have hlast : Grammar.last.contains last.token.kind = true := hcloses
    simp only [finish, hstack, Layers.itemsBelow, List.flatMap_nil, hlast, if_true]
  · rw [Reader.value?, h.tracks.around_eq_nil]
    exact hvalue

/-- Anywhere else the sequence is incomplete. -/
theorem finish_incomplete (h : state.Follows (some last.token.kind) opened reader)
    (hend : opened ≠ [] ∨ Grammar.closes (some last.token.kind) = false) :
    (state.finish last).result = .error ⟨last.position,
      .incomplete last.token.element (Grammar.next last.token.kind)⟩ := by
  cases hcloses : Grammar.closes (some last.token.kind) with
  | false =>
      obtain ⟨top, below, hstack⟩ := h.complete_of_not_closes hcloses
      simp only [finish, hstack]
  | true =>
      obtain ⟨root, below, hstack, -, rfl⟩ := h.complete_of_closes hcloses
      cases below with
      | nil => simp [hcloses] at hend
      | cons entry below => simp only [finish, hstack, Layers.itemsBelow, List.flatMap_cons,
          List.cons_append]

end Follows

end State

/-! ### Whole sequences -/

variable {tokens : List Token} {last : Placed} {tree : Tree}

theorem map_token_all (tokens : List Token) :
    (Placed.all tokens).map Placed.token = tokens :=
  map_token_from 1 tokens

theorem exists_last (hne : tokens ≠ []) :
    ∃ last, (Placed.all tokens).getLast? = some last ∧
      lastKind none tokens = some last.token.kind := by
  have hmap := map_token_all tokens
  cases hlast : (Placed.all tokens).getLast? with
  | none =>
      rw [List.getLast?_eq_none_iff.1 hlast] at hmap
      exact absurd hmap.symm hne
  | some last =>
      obtain ⟨front, hfront⟩ := List.getLast?_eq_some_iff.1 hlast
      rw [hfront, List.map_append] at hmap
      refine ⟨last, rfl, ?_⟩
      rw [← hmap, lastKind_append]
      rfl

theorem parse_of_acceptAll {state : State} (hlast : (Placed.all tokens).getLast? = some last)
    (haccept : (State.initial tokens.length).acceptAll (Placed.all tokens) = .ok state) :
    parse tokens = (state.finish last).result := by
  simp only [parse, parseTraced, hlast, haccept]

theorem acceptAll_of_parse (hparse : parse tokens = .ok tree) :
    tokens ≠ [] ∧
      ∃ state, (State.initial tokens.length).acceptAll (Placed.all tokens) = .ok state := by
  cases tokens with
  | nil => contradiction
  | cons token rest =>
      refine ⟨List.cons_ne_nil _ _, ?_⟩
      obtain ⟨last, hlast, -⟩ := exists_last (List.cons_ne_nil token rest)
      cases haccept : (State.initial (token :: rest).length).acceptAll
          (Placed.all (token :: rest)) with
      | ok state => exact ⟨state, rfl⟩
      | error failure =>
          simp only [parse, parseTraced, hlast, haccept] at hparse
          contradiction

/-- A valid sequence that is not empty has a tree, and the term of the tree is what a reader has
    in the end. -/
theorem exists_tree_of_validate (hne : tokens ≠ []) (hvalid : validate tokens = .ok ()) :
    ∃ tree reader, parse tokens = .ok tree ∧ ({} : Reader).takeAll? tokens = some reader ∧
      reader.value? = some tree.term := by
  obtain ⟨hcheck, hlinked, hcloses⟩ := (validate_eq_ok_iff tokens).1 hvalid
  rw [← map_token_all tokens] at hlinked
  obtain ⟨state, reader, haccept, htake, hfollows⟩ :=
    (State.Follows.initial tokens.length).acceptAll hlinked
      ((Nesting.check_eq_ok_iff_scan tokens).1 hcheck)
  obtain ⟨last, hlast, hkind⟩ := exists_last hne
  rw [map_token_all] at htake hfollows
  rw [hkind] at hfollows hcloses
  obtain ⟨tree, hresult, hvalue⟩ := hfollows.finish_ok hcloses
  exact ⟨tree, reader, (parse_of_acceptAll hlast haccept).trans hresult, htake, hvalue⟩

theorem exists_parse_of_validate (hne : tokens ≠ []) (hvalid : validate tokens = .ok ()) :
    ∃ tree, parse tokens = .ok tree := by
  obtain ⟨tree, -, hparse, -⟩ := exists_tree_of_validate hne hvalid
  exact ⟨tree, hparse⟩

/-- Only valid sequences have a tree. -/
theorem validate_of_parse (hparse : parse tokens = .ok tree) : validate tokens = .ok () := by
  obtain ⟨hne, state, haccept⟩ := acceptAll_of_parse hparse
  obtain ⟨hlinked, opened, hscan⟩ := (State.Follows.initial tokens.length).of_acceptAll haccept
  obtain ⟨state', reader, haccept', -, hfollows⟩ :=
    (State.Follows.initial tokens.length).acceptAll hlinked hscan
  cases haccept.symm.trans haccept'
  obtain ⟨last, hlast, hkind⟩ := exists_last hne
  rw [map_token_all, hkind] at hfollows
  rw [parse_of_acceptAll hlast haccept] at hparse
  rw [map_token_all] at hlinked
  cases hcloses : Grammar.closes (some last.token.kind) with
  | false =>
      rw [hfollows.finish_incomplete (.inr hcloses)] at hparse
      contradiction
  | true =>
      cases opened with
      | cons innermost outer =>
          rw [hfollows.finish_incomplete (.inl (List.cons_ne_nil _ _))] at hparse
          contradiction
      | nil =>
          refine (validate_eq_ok_iff tokens).2
            ⟨(Nesting.check_eq_ok_iff_scan tokens).2 hscan, hlinked, ?_⟩
          rw [hkind]
          exact hcloses

/-- The term of a tree is what a reader has in the end. -/
theorem exists_reader_of_parse (hparse : parse tokens = .ok tree) :
    ∃ reader, ({} : Reader).takeAll? tokens = some reader ∧ reader.value? = some tree.term := by
  obtain ⟨other, reader, hother, htake, hvalue⟩ :=
    exists_tree_of_validate (acceptAll_of_parse hparse).1 (validate_of_parse hparse)
  cases hparse.symm.trans hother
  exact ⟨reader, htake, hvalue⟩

/-! ### What the parser accepts and means -/

/-- Apart from the empty sequence, which is well formed but has no tree, the parser accepts what
    the validator accepts. -/
theorem validate_eq_ok_iff_parse (hne : tokens ≠ []) :
    validate tokens = .ok () ↔ ∃ tree, parse tokens = .ok tree := by
  constructor
  · exact exists_parse_of_validate hne
  · rintro ⟨tree, hparse⟩
    exact validate_of_parse hparse

/-- A semi-colon that nothing precedes, and one that nothing follows in a group, do not keep the
    parser from a tree. -/
theorem parse_loose_semicolons :
    ∃ tree, parse [⟨.semicolon, ";", ""⟩, ⟨.opening, "(", "round"⟩, ⟨.var, "x", ""⟩,
      ⟨.semicolon, ";", ""⟩, ⟨.closing, ")", "round"⟩, ⟨.dyad, "+", ""⟩, ⟨.var, "y", ""⟩] =
        .ok tree :=
  (validate_eq_ok_iff_parse (List.cons_ne_nil _ _)).1 rfl

/-- The term of a tree is the meaning of its sequence. -/
theorem meaning?_of_parse (hparse : parse tokens = .ok tree) :
    meaning? tokens = some tree.term := by
  obtain ⟨reader, htake, hvalue⟩ := exists_reader_of_parse hparse
  rw [meaning?_eq, htake]
  exact hvalue

/-- A group closes the chain that waits for it, so the suffix after it takes all that was read. -/
theorem parse_suffix_after_group :
    ∃ tree, parse [⟨.var, "x", ""⟩, ⟨.assign, "=", ""⟩, ⟨.opening, "(", "round"⟩,
      ⟨.prefixOp, "-", ""⟩, ⟨.var, "y", ""⟩, ⟨.closing, ")", "round"⟩, ⟨.suffixOp, "!", ""⟩] =
        .ok tree ∧
      tree.term = .node .suffixOp "!" [.node .assign "="
        [.leaf .var "x", .node .prefixOp "-" [.leaf .var "y"]]] := by
  refine (exists_parse_of_validate (List.cons_ne_nil _ _) ?_).imp fun tree hparse => ⟨hparse, ?_⟩
  · rfl
  · have hmeaning := meaning?_of_parse hparse
    exact Option.some.inj (hmeaning.symm.trans rfl)

end OperatorTerms
