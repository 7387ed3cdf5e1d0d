/-
Module: OperatorTerms.Proofs.ReductionFold
Layer: Proofs
Purpose: What reducing the top of the stack amounts to. The items of one nesting level are a chain
  of operands with infix operators after them, prefix operators above the chain, and perhaps a
  current operand on top. With an operand on top the rules apply the prefixes to it, the nearest
  first, and then close the chain, the newest operator first; they stop at the opening parenthesis
  below, and they touch nothing beneath it. Without an operand on top nothing is reduced.
Imports: OperatorTerms.Automaton.Rule
Main exports: Draft, Segment, Segment.complete, State.reduceAll_segment,
  State.reducePrefixes_segment, State.reduceAll_of_token
-/
import OperatorTerms.Automaton.Rule

namespace OperatorTerms

/-- A term in the making: the node that stands for it so far, the forest of that node, and the
    records made on the way, newest first. -/
structure Draft where
  root : NodeId
  forest : Forest
  log : List Record

namespace Draft

/-- The parser with the draft on top of the given items. -/
def atop (draft : Draft) (below : List Item) : State :=
  ⟨.term draft.root :: below, draft.forest, draft.log⟩

/-- A draft without operands. -/
def leaf (forest : Forest) (log : List Record) (kind : Kind) (label : String) : Draft :=
  ⟨forest.size, forest.leaf kind label, log⟩

theorem buildLeaf_eq_atop (state : State) (kind : Kind) (label : String) (below : List Item) :
    state.buildLeaf kind label below = (leaf state.forest state.log kind label).atop below := rfl

/-- Applies a prefix or suffix operator to the draft. -/
def wrap (draft : Draft) (operator : Placed) : Draft where
  root := draft.forest.size
  forest := draft.forest.apply operator.token.kind operator.token.label [draft.root]
  log := .reduceUnary operator.token.label :: draft.log

/-- Makes the draft the right operand of an infix operator whose left operand is known. -/
def join (draft : Draft) (link : NodeId × Placed) : Draft where
  root := draft.forest.size
  forest := draft.forest.apply link.2.token.kind link.2.token.label [link.1, draft.root]
  log := .reduceInfix link.2.token.label :: draft.log

end Draft

/-- The part of the stack that belongs to one nesting segment. -/
structure Segment where
  /-- Operands with the infix operators after them, newest first. -/
  chain : List (NodeId × Placed) := []
  /-- Prefix operators without operand, nearest first. -/
  prefixes : List Placed := []
  /-- The operand read last, unless an operator followed it. -/
  current : Option NodeId := none

namespace Segment

/-- The items of a chain, top first. -/
def chainItems (chain : List (NodeId × Placed)) : List Item :=
  chain.flatMap fun link => [.token link.2, .term link.1]

/-- The items that wait for an operand, top first. -/
def waiting (segment : Segment) : List Item :=
  segment.prefixes.map Item.token ++ chainItems segment.chain

/-- The items of the segment, top first. -/
def items (segment : Segment) : List Item :=
  (segment.current.map Item.term).toList ++ segment.waiting

/-- The operators of the segment are of the kinds that their places call for. -/
structure Sound (segment : Segment) : Prop where
  prefixes : ∀ operator ∈ segment.prefixes, operator.token.kind = .prefixOp
  chain : ∀ link ∈ segment.chain, link.2.token.kind.isInfix = true

/-- Gives the segment its last operand: the prefixes are applied to it, and the chain is closed. -/
def complete (segment : Segment) (draft : Draft) : Draft :=
  segment.chain.foldl Draft.join (segment.prefixes.foldl Draft.wrap draft)

end Segment

namespace State

/-- Reduction does not look beneath the items: there are none, or an opening parenthesis is on
    top. -/
def Bounded (below : List Item) : Prop := ∀ item ∈ below.head?, item.kind = .opening

variable {state reduced : State} {draft : Draft} {below : List Item}

theorem reduceAll_of_reduce?_eq_some (h : state.reduce? = some reduced) :
    state.reduceAll = reduced.reduceAll := by
  rw [reduceAll, reduceAllWith]
  split
  · rename_i hnone
    rw [reduce?, hnone] at h
    contradiction
  · rename_i reduced' hsome
    rw [reduce?, hsome] at h
    cases h
    rfl

theorem reduceAll_of_reduce?_eq_none (h : state.reduce? = none) : state.reduceAll = state := by
  rw [reduceAll, reduceAllWith]
  split
  · rfl
  · rename_i hsome
    rw [reduce?, hsome] at h
    contradiction

theorem reducePrefixes_of_prefixReduct?_eq_some (h : state.prefixReduct? = some reduced) :
    state.reducePrefixes = reduced.reducePrefixes := by
  rw [reducePrefixes]
  split
  · rename_i hnone
    rw [h] at hnone
    contradiction
  · rename_i hsome
    rw [h] at hsome
    cases hsome
    rfl

theorem reducePrefixes_of_prefixReduct?_eq_none (h : state.prefixReduct? = none) :
    state.reducePrefixes = state := by
  rw [reducePrefixes]
  split
  · rfl
  · rename_i hsome
    rw [h] at hsome
    contradiction

/-! ### Single reductions of a term on top -/

/-- A unary operator below the term on top is applied to it. -/
theorem reduceAll_atop_unary {operator : Placed} (h : operator.token.kind.isUnary = true) :
    (draft.atop (.token operator :: below)).reduceAll =
      ((draft.wrap operator).atop below).reduceAll := by
  have hinfix := Kind.isInfix_of_isUnary h
  apply reduceAll_of_reduce?_eq_some
  cases below with
  | nil =>
      simp [reduce?, reduceWith?, Rule.all, Rule.reduct?, Draft.atop, Draft.wrap, note, build, h]
  | cons item below =>
      cases item <;>
        simp [reduce?, reduceWith?, Rule.all, Rule.reduct?, Draft.atop, Draft.wrap, note, build, h,
          hinfix]

/-- An infix operator below the term on top takes that term and the one below. -/
theorem reduceAll_atop_infix {link : NodeId × Placed}
    (h : link.2.token.kind.isInfix = true) :
    (draft.atop (.token link.2 :: .term link.1 :: below)).reduceAll =
      ((draft.join link).atop below).reduceAll := by
  apply reduceAll_of_reduce?_eq_some
  simp [reduce?, reduceWith?, Rule.all, Rule.reduct?, Draft.atop, Draft.join, note, build, h]

/-- An opening parenthesis, or the bottom of the stack, below the term on top ends reduction. -/
theorem reduceAll_atop_bounded (h : Bounded below) :
    (draft.atop below).reduceAll = draft.atop below := by
  apply reduceAll_of_reduce?_eq_none
  cases below with
  | nil => simp [reduce?, reduceWith?, Rule.all, Rule.reduct?, Draft.atop]
  | cons item below =>
      cases item with
      | term id => exact absurd (h _ rfl) (by simp [Item.kind])
      | token opened =>
          have hopened : opened.token.kind = .opening := h _ rfl
          cases below with
          | nil =>
              simp [reduce?, reduceWith?, Rule.all, Rule.reduct?, Draft.atop, hopened, Kind.isUnary]
          | cons item below =>
              cases item <;>
                simp [reduce?, reduceWith?, Rule.all, Rule.reduct?, Draft.atop, hopened,
                  Kind.isInfix, Kind.isUnary]

/-- With a token on top that is no closing parenthesis nothing is reduced. -/
theorem reduceAll_of_token {top : Placed} {forest : Forest} {log : List Record}
    (h : top.token.kind ≠ .closing) :
    reduceAll ⟨.token top :: below, forest, log⟩ = ⟨.token top :: below, forest, log⟩ := by
  apply reduceAll_of_reduce?_eq_none
  have hpairs : ∀ opened : Placed, opened.token.pairsWith top.token = false := by
    intro opened
    simp [Token.pairsWith, h]
  cases below with
  | nil => simp [reduce?, reduceWith?, Rule.all, Rule.reduct?]
  | cons item below =>
      cases item with
      | token opened => simp [reduce?, reduceWith?, Rule.all, Rule.reduct?, hpairs, h]
      | term id =>
          cases below with
          | nil => simp [reduce?, reduceWith?, Rule.all, Rule.reduct?]
          | cons item below =>
              cases item <;> simp [reduce?, reduceWith?, Rule.all, Rule.reduct?, hpairs]

/-! ### Whole segments -/

/-- With an operand on top, reduction completes the segment and stops at its lower end. -/
theorem reduceAll_segment {segment : Segment} (hsound : segment.Sound) (hbelow : Bounded below) :
    (draft.atop (segment.waiting ++ below)).reduceAll = (segment.complete draft).atop below := by
  rcases segment with ⟨chain, prefixes, current⟩
  rcases hsound with ⟨hprefixes, hchain⟩
  simp only [Segment.waiting, Segment.complete] at hprefixes hchain ⊢
  -- The prefixes are used up first, one reduction each, and then the links of the chain.
  induction prefixes generalizing draft with
  | cons operator prefixes ih =>
      have hunary : operator.token.kind.isUnary = true := by
        rw [hprefixes operator (by simp)]
        rfl
      rw [List.map_cons, List.cons_append, List.cons_append, reduceAll_atop_unary hunary]
      exact ih fun p hp => hprefixes p (by simp [hp])
  | nil =>
      induction chain generalizing draft with
      | nil => exact reduceAll_atop_bounded hbelow
      | cons link chain ih =>
          have hlinks : ∀ l ∈ chain, l.2.token.kind.isInfix = true :=
            fun l hl => hchain l (by simp [hl])
          have hstep : (draft.atop (.token link.2 :: .term link.1 ::
              (Segment.chainItems chain ++ below))).reduceAll =
                ((draft.join link).atop (Segment.chainItems chain ++ below)).reduceAll :=
            reduceAll_atop_infix (hchain link (by simp))
          exact hstep.trans (ih hlinks)

theorem reducePrefixes_atop_prefix {operator : Placed} (h : operator.token.kind = .prefixOp) :
    (draft.atop (.token operator :: below)).reducePrefixes =
      ((draft.wrap operator).atop below).reducePrefixes := by
  apply reducePrefixes_of_prefixReduct?_eq_some
  simp [prefixReduct?, Rule.reduct?, Draft.atop, Draft.wrap, note, build, h, Kind.isUnary]

theorem reducePrefixes_atop_other (h : ∀ item ∈ below.head?, item.kind ≠ .prefixOp) :
    (draft.atop below).reducePrefixes = draft.atop below := by
  apply reducePrefixes_of_prefixReduct?_eq_none
  match below with
  | [] => rfl
  | .term _ :: _ => rfl
  | .token operator :: _ =>
      have hkind : operator.token.kind ≠ .prefixOp := h _ rfl
      simp [prefixReduct?, Draft.atop, hkind]

/-- Below an operand just read, the prefixes of its segment are used up and the chain stays. -/
theorem reducePrefixes_segment {segment : Segment} (hsound : segment.Sound)
    (hbelow : Bounded below) :
    (draft.atop (segment.waiting ++ below)).reducePrefixes =
      (segment.prefixes.foldl Draft.wrap draft).atop
        (Segment.chainItems segment.chain ++ below) := by
  rcases segment with ⟨chain, prefixes, current⟩
  rcases hsound with ⟨hprefixes, hchain⟩
  simp only [Segment.waiting] at hprefixes hchain ⊢
  induction prefixes generalizing draft with
  | cons operator prefixes ih =>
      rw [List.map_cons, List.cons_append, List.cons_append,
        reducePrefixes_atop_prefix (hprefixes operator (by simp))]
      exact ih fun p hp => hprefixes p (by simp [hp])
  | nil =>
      apply reducePrefixes_atop_other
      cases chain with
      | nil =>
          intro item hitem
          rw [hbelow item hitem]
          decide
      | cons link chain =>
          intro item hitem
          cases hitem
          intro hkind
          have hinfix := hchain link (by simp)
          rw [show link.2.token.kind = .prefixOp from hkind] at hinfix
          contradiction

/-! ### A closing parenthesis on top -/

variable {opened closed semicolon : Placed} {forest : Forest} {log : List Record} {id : NodeId}

/-- Parentheses that pair are removed from around a term. -/
theorem reduceAll_pair (hpairs : opened.token.pairsWith closed.token = true) :
    reduceAll ⟨.token closed :: .term id :: .token opened :: below, forest, log⟩ =
      reduceAll ⟨.term id :: below, forest,
        .reduceGroup opened.token.label closed.token.label :: log⟩ := by
  apply reduceAll_of_reduce?_eq_some
  simp [reduce?, reduceWith?, Rule.all, Rule.reduct?, note, hpairs]

/-- Parentheses that pair with nothing between them are replaced by a placeholder. -/
theorem reduceAll_emptyPair (hpairs : opened.token.pairsWith closed.token = true) :
    reduceAll ⟨.token closed :: .token opened :: below, forest, log⟩ =
      reduceAll ⟨.term forest.size :: below, forest.leaf .term Term.emptyGroupLabel,
        .reduceEmptyGroup opened.token.label closed.token.label :: log⟩ := by
  apply reduceAll_of_reduce?_eq_some
  simp [reduce?, reduceWith?, Rule.all, Rule.reduct?, note, buildLeaf, hpairs]

/-- Parentheses that pair leave the term between them, which completes the segment around. -/
theorem reduceAll_group {segment : Segment} (hpairs : opened.token.pairsWith closed.token = true)
    (hsound : segment.Sound) (hbelow : Bounded below) :
    reduceAll ⟨.token closed :: .term id :: .token opened :: (segment.waiting ++ below),
        forest, log⟩ =
      (segment.complete ⟨id, forest,
        .reduceGroup opened.token.label closed.token.label :: log⟩).atop below := by
  rw [← reduceAll_segment hsound hbelow]
  exact reduceAll_pair hpairs

/-- Parentheses that pair with nothing between them are a placeholder, which completes the segment
    around. -/
theorem reduceAll_emptyGroup {segment : Segment}
    (hpairs : opened.token.pairsWith closed.token = true) (hsound : segment.Sound)
    (hbelow : Bounded below) :
    reduceAll ⟨.token closed :: .token opened :: (segment.waiting ++ below), forest, log⟩ =
      (segment.complete
        (.leaf forest (.reduceEmptyGroup opened.token.label closed.token.label :: log)
          .term Term.emptyGroupLabel)).atop below := by
  rw [← reduceAll_segment hsound hbelow]
  exact reduceAll_emptyPair hpairs

/-- A semi-colon below a closing parenthesis is dropped. -/
theorem reduceAll_semicolon (hsemicolon : semicolon.token.kind = .semicolon)
    (hclosed : closed.token.kind = .closing) :
    reduceAll ⟨.token closed :: .token semicolon :: below, forest, log⟩ =
      reduceAll ⟨.token closed :: below, forest,
        .dropSemicolon semicolon.token.label closed.token.label :: log⟩ := by
  have hpairs : semicolon.token.pairsWith closed.token = false := by
    simp [Token.pairsWith, hsemicolon]
  apply reduceAll_of_reduce?_eq_some
  simp [reduce?, reduceWith?, Rule.all, Rule.reduct?, note, hsemicolon, hclosed, hpairs]

/-- A parenthesis that does not pair with the one below it stays, with or without a term between
    them. -/
theorem reduceAll_mismatch {between : Option NodeId} (hopened : opened.token.kind = .opening)
    (hpairs : opened.token.pairsWith closed.token = false) :
    reduceAll ⟨.token closed :: ((between.map .term).toList ++ .token opened :: below),
        forest, log⟩ =
      ⟨.token closed :: ((between.map .term).toList ++ .token opened :: below), forest, log⟩ := by
  apply reduceAll_of_reduce?_eq_none
  cases between with
  | none => simp [reduce?, reduceWith?, Rule.all, Rule.reduct?, hpairs, hopened]
  | some id => simp [reduce?, reduceWith?, Rule.all, Rule.reduct?, hpairs]

/-- A closing parenthesis stays above a term that stands alone. -/
theorem reduceAll_stray :
    reduceAll ⟨[.token closed, .term id], forest, log⟩ =
      ⟨[.token closed, .term id], forest, log⟩ := by
  apply reduceAll_of_reduce?_eq_none
  simp [reduce?, reduceWith?, Rule.all, Rule.reduct?]

end State

end OperatorTerms
