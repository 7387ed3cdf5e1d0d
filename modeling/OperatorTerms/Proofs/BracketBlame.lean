/-
Module: OperatorTerms.Proofs.BracketBlame
Layer: Proofs
Purpose: Which parenthesis the bracket scan blames. The tokens read so far are cut by the
  parentheses that are still open into well-nested parts, so these are the ones that no token has
  closed, and closing them in turn completes the sequence. The scan therefore stops at the first
  token after which no continuation can be well nested, and blames the last parenthesis that is
  open there; if it does not stop, and some are open at the end, it blames the last of those.
Imports: Mathlib.Order.Bounds.Basic, OperatorTerms.Proofs.Completion,
  OperatorTerms.Proofs.ValidationFailure, OperatorTerms.Proofs.ValidationGrammar
Main exports: Extendable, Unmatched, LastUnmatched, LeftOpen, LeftOpen.mem_iff_unmatched,
  extendable_iff_scan, FirstFault, Blames, blames_of_check, check_outcome_iff
-/
import Mathlib.Order.Bounds.Basic
import OperatorTerms.Proofs.Completion
import OperatorTerms.Proofs.ValidationFailure
import OperatorTerms.Proofs.ValidationGrammar

namespace OperatorTerms

/-- The tokens are the beginning of a well-nested sequence. -/
def Extendable (tokens : List Token) : Prop := ∃ others, WellNested (tokens ++ others)

/-- An opening parenthesis of the sequence that none of the tokens after it closes. -/
def Unmatched (placed : List Placed) (opened : Placed) : Prop :=
  ∃ front back, placed = front ++ opened :: back ∧ opened.token.kind = .opening ∧
    ∀ inner closed rest, back.map Placed.token = inner ++ closed :: rest → WellNested inner →
      opened.token.pairsWith closed = false

/-- The opening parenthesis furthest to the right among those that no token closes. -/
def LastUnmatched (placed : List Placed) (opened : Placed) : Prop :=
  Unmatched placed opened ∧ ∀ other, Unmatched placed other → other.position ≤ opened.position

/-- The least length at which the beginning of the sequence can no longer be completed to a
    well-nested one. -/
def FirstFault (tokens : List Token) (position : Position) : Prop :=
  IsLeast {length | ¬ Extendable (tokens.take length)} position

variable {tokens inner rest : List Token} {closed : Token}
  {placed before after opens opens' : List Placed} {next innermost other : Placed}
  {previous : Option Kind} {position : Position} {error error' : SyntaxError}

/-! ### Partners in well-nested sequences -/

namespace WellNested

/-- A well-nested sequence does not go on with a closing parenthesis. -/
theorem not_closing (h : WellNested inner) (hkind : closed.kind = .closing) :
    ¬ WellNested (inner ++ closed :: rest) := by
  intro hnested
  have hscan := (Nesting.wellNested_iff_scan (map_token_all _)).1 hnested
  rw [Placed.all, placed_from_append, Nesting.scan_append,
    Nesting.scan_wellNested h (map_token_from 1 inner), bind_eq_ok_iff] at hscan
  obtain ⟨opens, hopens, hscan⟩ := hscan
  cases hopens
  rw [Placed.from, Nesting.scan_cons, Nesting.step_closing_nil hkind] at hscan
  contradiction

/-- In a well-nested sequence every opening parenthesis is closed. -/
theorem exists_partner (h : WellNested ((before ++ next :: after).map Placed.token))
    (hkind : next.token.kind = .opening) :
    ∃ inner closed rest, after.map Placed.token = inner ++ closed :: rest ∧ WellNested inner ∧
      next.token.pairsWith closed = true := by
  have hscan : Nesting.scan none [] (before ++ next :: after) = .ok [] :=
    Nesting.scan_wellNested h rfl
  rw [Nesting.scan_append, bind_eq_ok_iff] at hscan
  obtain ⟨opens, -, hscan⟩ := hscan
  rw [Nesting.scan_cons, Nesting.step_opening hkind] at hscan
  -- What comes after the parenthesis closes it, and then all that was open before it.
  have hclosing := Nesting.closing_of_scan hscan
  rw [List.map_cons] at hclosing
  generalize hafter : after.map Placed.token = tokens at hclosing
  cases hclosing with
  | cons hpairs hinner _ => exact ⟨_, _, _, rfl, hinner, hpairs⟩

/-- Whether a sequence is well nested depends on its parentheses alone. -/
theorem filter_isBracket_iff (tokens : List Token) :
    WellNested (tokens.filter (·.kind.isBracket)) ↔ WellNested tokens := by
  constructor
  · intro h
    generalize hfilter : tokens.filter (·.kind.isBracket) = brackets at h
    induction h generalizing tokens with
    | nil =>
        exact .of_plain fun token hmem => by
          simpa using List.filter_eq_nil_iff.1 hfilter token hmem
    | @plain token rest hplain _ _ =>
        have hmem : token ∈ tokens.filter (·.kind.isBracket) := hfilter ▸ List.mem_cons_self
        rw [List.mem_filter, hplain] at hmem
        exact absurd hmem.2 Bool.false_ne_true
    | @group opened closed inner rest hopened hclosed hsame _ _ ihinner ihrest =>
        rw [List.cons_append, List.filter_eq_cons_iff] at hfilter
        obtain ⟨lead, tail, rfl, hlead, -, htail⟩ := hfilter
        rw [List.filter_eq_append_iff] at htail
        obtain ⟨within, tail, rfl, hwithin, htail⟩ := htail
        rw [List.filter_eq_cons_iff] at htail
        obtain ⟨close, tail, rfl, hclose, -, htail⟩ := htail
        have hplain {tokens : List Token} (h : ∀ token ∈ tokens, ¬ token.kind.isBracket = true) :
            WellNested tokens := .of_plain fun token hmem => by simpa using h token hmem
        have hinner := (ihinner _ hwithin).append (hplain hclose)
        have hgroup := WellNested.group hopened hclosed hsame hinner (ihrest _ htail)
        simpa using (hplain hlead).append hgroup
  · intro h
    induction h with
    | nil => exact .nil
    | plain hplain _ ih => simpa [List.filter_cons, hplain] using ih
    | group hopened hclosed hsame _ _ ihinner ihrest =>
        simpa [List.filter_cons, hopened, hclosed, Kind.isBracket] using
          WellNested.group hopened hclosed hsame ihinner ihrest

end WellNested

/-! ### Parentheses that are left open -/

/-- The tokens leave the given parentheses open, innermost first: what stands before, between and
    after these is well nested. -/
inductive LeftOpen : List Placed → List Placed → Prop where
  | nil {placed : List Placed} : WellNested (placed.map Placed.token) → LeftOpen placed []
  | cons {before after outer : List Placed} {innermost : Placed} : LeftOpen before outer →
      innermost.token.kind = .opening → WellNested (after.map Placed.token) →
        LeftOpen (before ++ innermost :: after) (innermost :: outer)

/-- No parenthesis of a well-nested sequence is unmatched. -/
theorem not_unmatched_of_wellNested (h : WellNested (placed.map Placed.token)) :
    ¬ Unmatched placed other := by
  rintro ⟨front, back, rfl, hkind, hopen⟩
  obtain ⟨inner, closed, rest, hback, hinner, hpairs⟩ := h.exists_partner hkind
  rw [hopen inner closed rest hback hinner] at hpairs
  contradiction

namespace LeftOpen

theorem append (h : LeftOpen placed opens) (hafter : WellNested (after.map Placed.token)) :
    LeftOpen (placed ++ after) opens := by
  cases h with
  | nil hplaced =>
      refine .nil ?_
      rw [List.map_append]
      exact hplaced.append hafter
  | @cons before between outer innermost hbefore hkind hbetween =>
      rw [List.append_assoc, List.cons_append]
      refine .cons hbefore hkind ?_
      rw [List.map_append]
      exact hbetween.append hafter

/-- Well-nested tokens and the closing parentheses of those left open make the sequence well
    nested. -/
theorem wellNested_closers (h : LeftOpen placed opens) (hinner : WellNested inner) :
    WellNested (placed.map Placed.token ++ inner ++ opens.map Placed.closer) := by
  induction h generalizing inner with
  | nil hplaced => simpa using hplaced.append hinner
  | @cons before after outer innermost _ hkind hafter ih =>
      -- The innermost parenthesis and its partner enclose a group before the other partners.
      have hclosing : innermost.closer.kind = .closing := rfl
      simpa using ih (.group hkind hclosing rfl (hafter.append hinner) .nil)

theorem extendable (h : LeftOpen placed opens) : Extendable (placed.map Placed.token) := by
  have hclosers := h.wellNested_closers .nil
  rw [List.append_nil] at hclosers
  exact ⟨_, hclosers⟩

/-- The tokens behind a parenthesis that is left open leave their own parentheses open, and none of
    them closes it. -/
theorem unmatched (h : LeftOpen placed opens) (hmem : other ∈ opens) : Unmatched placed other := by
  suffices hcut : ∃ front back opens', placed = front ++ other :: back ∧
      other.token.kind = .opening ∧ LeftOpen back opens' by
    obtain ⟨front, back, opens', rfl, hkind, hback⟩ := hcut
    refine ⟨front, back, rfl, hkind, ?_⟩
    intro inner closed rest hinside hinner
    obtain ⟨others, hothers⟩ := hback.extendable
    rw [hinside, List.append_assoc, List.cons_append] at hothers
    cases hpairs : other.token.pairsWith closed with
    | false => rfl
    | true => exact absurd hothers (hinner.not_closing (Token.kind_of_pairsWith hpairs).2)
  induction h with
  | nil _ => contradiction
  | @cons before after outer innermost hbefore hkind hafter ih =>
      rcases List.mem_cons.1 hmem with rfl | hmem
      · exact ⟨before, after, [], rfl, hkind, .nil hafter⟩
      · obtain ⟨front, back, opens', rfl, hother, hback⟩ := ih hmem
        exact ⟨front, back ++ innermost :: after, innermost :: opens', by simp, hother,
          .cons hback hkind hafter⟩

/-- The parentheses that are left open are those that no token closes. -/
theorem mem_iff_unmatched (h : LeftOpen placed opens) :
    other ∈ opens ↔ Unmatched placed other := by
  refine ⟨h.unmatched, ?_⟩
  induction h with
  | nil hplaced => exact fun hunmatched => absurd hunmatched (not_unmatched_of_wellNested hplaced)
  | @cons before after outer innermost hbefore hkind hafter ih =>
      rintro ⟨front, back, hplaced, hother, hopen⟩
      rcases List.append_eq_append_iff.1 hplaced with
        ⟨_ | ⟨first, between⟩, hfront, hback⟩ | ⟨_ | ⟨first, between⟩, hfront, hback⟩
      · exact List.mem_cons.2 (.inl (List.cons.inj hback).1.symm)
      · -- A parenthesis behind the innermost one has its partner there.
        exact absurd ⟨between, back, (List.cons.inj hback).2, hother, hopen⟩
          (not_unmatched_of_wellNested hafter)
      · exact List.mem_cons.2 (.inl (List.cons.inj hback).1)
      · rw [List.cons_append] at hback
        obtain ⟨rfl, rfl⟩ := List.cons.inj hback
        refine List.mem_cons_of_mem _ (ih ⟨front, between, hfront, hother, ?_⟩)
        intro inner closed rest hbetween hinner
        refine hopen inner closed (rest ++ (innermost :: after).map Placed.token) ?_ hinner
        rw [List.map_append, hbetween, List.append_assoc, List.cons_append]

/-- A step of the scan opens a parenthesis, closes the innermost one, or lets the token be. -/
theorem step (h : LeftOpen placed opens) (hstep : Nesting.step previous opens next = .ok opens') :
    LeftOpen (placed ++ [next]) opens' := by
  rcases Nesting.step_cases hstep with ⟨hkind, rfl⟩ | ⟨innermost, hpairs, rfl⟩ | ⟨hkind, rfl⟩
  · exact .cons h hkind .nil
  · cases h with
    | @cons before after outer innermost hbefore hkind hafter =>
        rw [List.append_assoc]
        refine hbefore.append ?_
        simpa using WellNested.paired hpairs hafter .nil
  · exact h.append (.plain hkind .nil)

theorem scan (h : LeftOpen before opens) (hscan : Nesting.scan previous opens placed = .ok opens') :
    LeftOpen (before ++ placed) opens' := by
  induction placed generalizing before previous opens with
  | nil =>
      cases hscan
      rw [List.append_nil]
      exact h
  | cons next placed ih =>
      rw [Nesting.scan_cons, bind_eq_ok_iff] at hscan
      obtain ⟨between, hstep, hscan⟩ := hscan
      simpa using ih (h.step hstep) hscan

/-- The innermost parenthesis that is left open stands behind the others. -/
theorem position_lt (h : LeftOpen placed (innermost :: opens))
    (hsorted : placed.Pairwise (·.position < ·.position)) :
    ∀ outer ∈ opens, outer.position < innermost.position := by
  intro outer hmem
  cases h with
  | @cons before after _ _ hbefore _ _ =>
      obtain ⟨front, back, rfl, -, -⟩ := hbefore.unmatched hmem
      exact (List.pairwise_append.1 hsorted).2.2 outer (by simp) innermost (by simp)

end LeftOpen

/-- What the scan keeps are the parentheses that are left open. -/
theorem leftOpen_of_scan (h : Nesting.scan none [] placed = .ok opens) : LeftOpen placed opens :=
  LeftOpen.scan (@LeftOpen.nil [] .nil) h

/-! ### Places -/

theorem pairwise_position (start : Position) (tokens : List Token) :
    (Placed.from start tokens).Pairwise (·.position < ·.position) := by
  induction tokens generalizing start with
  | nil => exact .nil
  | cons token rest ih =>
      refine .cons (fun next hmem => ?_) (ih (start + 1))
      obtain ⟨front, back, hrest⟩ := List.append_of_mem hmem
      rw [position_of_from hrest]
      exact Nat.lt_of_lt_of_le (Nat.lt_succ_self start) (Nat.le_add_right _ _)

theorem from_take (start : Position) (tokens : List Token) (length : Nat) :
    Placed.from start (tokens.take length) = (Placed.from start tokens).take length := by
  induction tokens generalizing start length with
  | nil => simp [Placed.from]
  | cons token rest ih =>
      cases length with
      | zero => rfl
      | succ length => simp [Placed.from, ih]

theorem getElem?_of_mem_all (h : next ∈ Placed.all tokens) :
    (Placed.all tokens)[next.position - 1]? = some next := by
  obtain ⟨front, back, hall⟩ := List.append_of_mem h
  rw [position_of_all hall, hall]
  simp

/-- A place of the sequence holds one token. -/
theorem eq_of_position_eq (hnext : next ∈ Placed.all tokens) (hother : other ∈ Placed.all tokens)
    (hposition : next.position = other.position) : next = other := by
  have hget := getElem?_of_mem_all hnext
  rw [hposition, getElem?_of_mem_all hother] at hget
  exact (Option.some.inj hget).symm

/-- The part before a token consists of as many tokens as its position says. -/
theorem all_take_of_cut (h : Placed.all tokens = before ++ next :: after) :
    Placed.all (tokens.take (next.position - 1)) = before ∧
      Placed.all (tokens.take next.position) = before ++ [next] := by
  rw [position_of_all h, Placed.all, Placed.all, from_take, from_take, ← Placed.all, h]
  exact ⟨by simp, by simp [List.take_append, List.take_of_length_le]⟩

theorem Unmatched.mem (h : Unmatched placed other) : other ∈ placed := by
  obtain ⟨front, back, rfl, -, -⟩ := h
  simp

theorem LastUnmatched.unique (h : LastUnmatched (Placed.all tokens) next)
    (h' : LastUnmatched (Placed.all tokens) other) : next = other :=
  eq_of_position_eq h.1.mem h'.1.mem (Nat.le_antisymm (h'.2 next h.1) (h.2 other h'.1))

/-- What is innermost to the scan is the last parenthesis that no token closes. -/
theorem lastUnmatched_of_scan
    (h : Nesting.scan none [] (Placed.all tokens) = .ok (innermost :: opens)) :
    LastUnmatched (Placed.all tokens) innermost := by
  have hopen := leftOpen_of_scan h
  refine ⟨hopen.unmatched List.mem_cons_self, fun other hother => ?_⟩
  rcases List.mem_cons.1 (hopen.mem_iff_unmatched.2 hother) with rfl | hmem
  · exact Nat.le_refl _
  · exact Nat.le_of_lt (hopen.position_lt (pairwise_position 1 tokens) other hmem)

/-! ### Where the scan stops -/

/-- The scan reads to the end the sequences that can be continued to a well-nested one. -/
theorem extendable_iff_scan :
    Extendable tokens ↔ ∃ opens, Nesting.scan none [] (Placed.all tokens) = .ok opens := by
  constructor
  · rintro ⟨others, hnested⟩
    have hscan := (Nesting.wellNested_iff_scan (map_token_all _)).1 hnested
    rw [Placed.all, placed_from_append] at hscan
    exact Nesting.exists_scan_front (List.prefix_append _ _) hscan
  · rintro ⟨opens, hscan⟩
    have hextendable := (leftOpen_of_scan hscan).extendable
    rwa [map_token_all] at hextendable

theorem Extendable.take (h : Extendable tokens) (length : Nat) :
    Extendable (tokens.take length) := by
  obtain ⟨others, hnested⟩ := h
  refine ⟨tokens.drop length ++ others, ?_⟩
  rwa [← List.append_assoc, List.take_append_drop]

/-- From the token on to which the scan objects no well-nested sequence can be reached. -/
theorem firstFault_of_cut (hall : Placed.all tokens = before ++ next :: after)
    (hscan : Nesting.scan none [] before = .ok opens)
    (hstep : Nesting.step (lastKind none (before.map Placed.token)) opens next = .error error) :
    FirstFault tokens next.position := by
  obtain ⟨hbefore, hnext⟩ := all_take_of_cut hall
  constructor
  · intro hextendable
    obtain ⟨opens', hscan'⟩ := extendable_iff_scan.1 hextendable
    rw [hnext, Nesting.scan_append, hscan] at hscan'
    change Nesting.scan _ _ [next] = _ at hscan'
    rw [Nesting.scan_cons, hstep] at hscan'
    contradiction
  · intro length hlength
    by_contra hlt
    refine hlength ?_
    have hextendable : Extendable (tokens.take (next.position - 1)) :=
      extendable_iff_scan.2 ⟨opens, hbefore.symm ▸ hscan⟩
    have htake := hextendable.take length
    rwa [List.take_take, Nat.min_eq_left (by omega)] at htake

/-! ### The verdict -/

/-- What an error of the bracket scan says of the sequence. -/
inductive Blames (tokens : List Token) : SyntaxError → Prop where
  /-- At the first fault a parenthesis is open, and it is not the partner of the one found. -/
  | mismatch {next innermost : Placed} : next ∈ Placed.all tokens →
      FirstFault tokens next.position →
        LastUnmatched (Placed.all (tokens.take (next.position - 1))) innermost →
          Blames tokens ⟨next.position, .parenthesisMismatch innermost.token.label
            innermost.position next.token.label next.position⟩
  /-- At the first fault no parenthesis is open. -/
  | stray {next : Placed} : next ∈ Placed.all tokens → FirstFault tokens next.position →
      (∀ other, ¬ Unmatched (Placed.all (tokens.take (next.position - 1))) other) →
        Blames tokens ⟨next.position, .unexpectedClosing next.token.label next.position
          (Grammar.expectedAfter (lastKind none (tokens.take (next.position - 1))))⟩
  /-- There is no fault, but a parenthesis that no token closes. -/
  | unclosed {innermost : Placed} : (∀ length, Extendable (tokens.take length)) →
      ¬ WellNested tokens → LastUnmatched (Placed.all tokens) innermost →
        Blames tokens ⟨innermost.position, .unclosed innermost.token.label innermost.position⟩

/-- Whether a reason is about a closing parenthesis. -/
def Reason.atClosing : Reason → Bool
  | parenthesisMismatch .. | unexpectedClosing .. => true
  | _ => false

theorem FirstFault.not_wellNested (h : FirstFault tokens position) : ¬ WellNested tokens := by
  intro hnested
  have hextendable : Extendable tokens := ⟨[], by rwa [List.append_nil]⟩
  exact h.1 (hextendable.take position)

/-- What the scan reports is so. -/
theorem blames_of_check (h : Nesting.check tokens = .error error) : Blames tokens error := by
  rcases Nesting.check_error h with hscan | ⟨innermost, opens, hscan, rfl⟩
  · obtain ⟨before, next, after, opens, hall, hbefore, hstep⟩ := Nesting.scan_error hscan
    have hfault := firstFault_of_cut hall hbefore hstep
    have hnext : next ∈ Placed.all tokens := by simp [hall]
    obtain ⟨htake, -⟩ := all_take_of_cut hall
    rw [← htake] at hbefore
    obtain ⟨-, ⟨rfl, rfl⟩ | ⟨innermost, outer, rfl, -, rfl⟩⟩ := Nesting.step_error_cases hstep
    · rw [← htake, map_token_all]
      refine .stray hnext hfault fun other hother => ?_
      have hmem := (leftOpen_of_scan hbefore).mem_iff_unmatched.2 hother
      contradiction
    · exact .mismatch hnext hfault (lastUnmatched_of_scan hbefore)
  · refine .unclosed (extendable_iff_scan.2 ⟨_, hscan⟩).take ?_ (lastUnmatched_of_scan hscan)
    intro hnested
    rw [Nesting.scan_wellNested hnested (map_token_all tokens)] at hscan
    cases hscan

namespace Blames

theorem not_wellNested (h : Blames tokens error) : ¬ WellNested tokens := by
  cases h with
  | mismatch _ hfault _ => exact hfault.not_wellNested
  | stray _ hfault _ => exact hfault.not_wellNested
  | unclosed _ hnested _ => exact hnested

theorem eq_of_firstFault (hnext : next ∈ Placed.all tokens) (hother : other ∈ Placed.all tokens)
    (hfault : FirstFault tokens next.position) (hfault' : FirstFault tokens other.position) :
    next = other :=
  eq_of_position_eq hnext hother (hfault.unique hfault')

/-- Only one error says what is so. -/
theorem unique (h : Blames tokens error) (h' : Blames tokens error') : error = error' := by
  cases h with
  | mismatch hnext hfault hlast =>
      cases h' with
      | mismatch hnext' hfault' hlast' =>
          obtain rfl := eq_of_firstFault hnext hnext' hfault hfault'
          rw [hlast.unique hlast']
      | stray hnext' hfault' hnone =>
          obtain rfl := eq_of_firstFault hnext hnext' hfault hfault'
          exact absurd hlast.1 (hnone _)
      | unclosed hextendable _ _ => exact absurd (hextendable _) hfault.1
  | stray hnext hfault hnone =>
      cases h' with
      | mismatch hnext' hfault' hlast =>
          obtain rfl := eq_of_firstFault hnext hnext' hfault hfault'
          exact absurd hlast.1 (hnone _)
      | stray hnext' hfault' _ => rw [eq_of_firstFault hnext hnext' hfault hfault']
      | unclosed hextendable _ _ => exact absurd (hextendable _) hfault.1
  | unclosed hextendable _ hlast =>
      cases h' with
      | mismatch _ hfault _ => exact absurd (hextendable _) hfault.1
      | stray _ hfault _ => exact absurd (hextendable _) hfault.1
      | unclosed _ _ hlast' => rw [hlast.unique hlast']

end Blames

/-- A sequence that is not well nested is rejected. -/
theorem exists_check_error (h : ¬ WellNested tokens) :
    ∃ error, Nesting.check tokens = .error error ∧ Blames tokens error := by
  cases hcheck : Nesting.check tokens with
  | ok _ => exact absurd ((Nesting.check_eq_ok_iff_wellNested tokens).1 hcheck) h
  | error error => exact ⟨error, rfl, blames_of_check hcheck⟩

/-- The bracket scan accepts a sequence when its parentheses alone are well nested, it objects to a
    closing parenthesis where the first fault is, and its errors are the ones that say what is
    so. -/
theorem check_outcome_iff (tokens : List Token) :
    (Nesting.check tokens = .ok () ↔ WellNested (tokens.filter (·.kind.isBracket))) ∧
      (∀ position, (∃ reason, Nesting.check tokens = .error ⟨position, reason⟩ ∧
        reason.atClosing = true) ↔ FirstFault tokens position) ∧
      ∀ error, Nesting.check tokens = .error error ↔ Blames tokens error := by
  refine ⟨?_, fun position => ⟨?_, ?_⟩, fun error => ⟨blames_of_check, ?_⟩⟩
  · rw [WellNested.filter_isBracket_iff, Nesting.check_eq_ok_iff_wellNested]
  · rintro ⟨reason, hcheck, hclosing⟩
    cases blames_of_check hcheck with
    | mismatch _ hfault _ => exact hfault
    | stray _ hfault _ => exact hfault
    | unclosed _ _ _ => contradiction
  · intro hfault
    obtain ⟨error, hcheck, hblames⟩ := exists_check_error hfault.not_wellNested
    cases hblames with
    | mismatch _ hfault' _ =>
        rw [hfault.unique hfault']
        exact ⟨_, hcheck, rfl⟩
    | stray _ hfault' _ =>
        rw [hfault.unique hfault']
        exact ⟨_, hcheck, rfl⟩
    | unclosed hextendable _ _ => exact absurd (hextendable _) hfault.1
  · intro hblames
    obtain ⟨found, hcheck, hfound⟩ := exists_check_error hblames.not_wellNested
    rw [hblames.unique hfound]
    exact hcheck

end OperatorTerms
