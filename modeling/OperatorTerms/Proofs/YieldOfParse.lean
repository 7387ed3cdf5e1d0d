/-
Module: OperatorTerms.Proofs.YieldOfParse
Layer: Proofs
Purpose: No token is lost, doubled or moved. What a reader holds is written out level by level, the
  outermost first; with the spelling of the tokens to come after it, this is the same list before
  and after every token. At the end it is the yield of the term, at the beginning the spelling of
  the whole sequence.
Imports: OperatorTerms.Proofs.ParseOutcome, OperatorTerms.Term.Yield
Main exports: Reading.written, Reader.outlook, Reader.Sound.outlook_take?,
  Reader.Sound.outlook_takeAll?, yield_of_parse
-/
import OperatorTerms.Proofs.ParseOutcome
import OperatorTerms.Term.Yield

namespace OperatorTerms

/-! ### Terms written out -/

theorem Term.yield_leaf (kind : Kind) (label : String) :
    (leaf kind label).yield = [⟨kind, label⟩] := by
  rw [leaf, yield]

namespace Reading

variable {token : Token} {left operand : Term}

theorem yield_node_infix (h : token.kind.isInfix = true) :
    (node token [left, operand]).yield = left.yield ++ token.element :: operand.yield := by
  simp [node, Term.yield, Term.yieldAll, h, Token.element]

theorem yield_node_suffix (h : token.kind = .suffixOp) :
    (node token [operand]).yield = operand.yield ++ [token.element] := by
  simp [node, Term.yield, Term.yieldAll, h, Kind.isInfix, Token.element]

theorem yield_node_prefix (h : token.kind = .prefixOp) :
    (node token [operand]).yield = token.element :: operand.yield := by
  simp [node, Term.yield, Term.yieldAll, h, Kind.isInfix, Token.element]

/-- A chain written out, its oldest operand first. -/
def writtenChain : List (Term × Token) → List Element
  | [] => []
  | (operand, operator) :: chain =>
      writtenChain chain ++ operand.yield ++ [operator.element]

/-- A level written out as far as it has been read. -/
def written (reading : Reading) : List Element :=
  writtenChain reading.chain ++ (reading.prefixes.map Token.element).reverse ++
    (reading.current.map Term.yield).getD []

/-- Closing a chain writes it before the last operand. -/
theorem yield_closeChain {reading : Reading}
    (h : ∀ link ∈ reading.chain, link.2.kind.isInfix = true) (last : Term) :
    (reading.closeChain last).yield = writtenChain reading.chain ++ last.yield := by
  rcases reading with ⟨chain, prefixes, current⟩
  simp only [closeChain] at h ⊢
  induction chain generalizing last with
  | nil => rfl
  | cons link chain ih =>
      rw [List.foldl_cons, ih _ fun other hother => h other (List.mem_cons_of_mem _ hother),
        yield_node_infix (h link List.mem_cons_self), writtenChain]
      simp only [List.append_assoc, List.singleton_append]

/-- Applying prefixes writes them before the operand, the nearest last. -/
theorem yield_applyPrefixes {reading : Reading}
    (h : ∀ operator ∈ reading.prefixes, operator.kind = .prefixOp) (operand : Term) :
    (reading.applyPrefixes operand).yield =
      (reading.prefixes.map Token.element).reverse ++ operand.yield := by
  rcases reading with ⟨chain, prefixes, current⟩
  simp only [applyPrefixes] at h ⊢
  induction prefixes generalizing operand with
  | nil => rfl
  | cons operator prefixes ih =>
      rw [List.foldl_cons, ih _ fun other hother => h other (List.mem_cons_of_mem _ hother),
        yield_node_prefix (h operator List.mem_cons_self)]
      simp only [List.map_cons, List.reverse_cons, List.append_assoc, List.singleton_append]

/-- A group that ends is written where it was waited for. -/
theorem written_takeGroup {reading : Reading} (h : reading.Sound)
    (hcurrent : reading.current = none) (inner : Term) :
    (reading.takeGroup inner).written = reading.written ++ inner.yield := by
  have hclosed := yield_closeChain h.chain (reading.applyPrefixes inner)
  rw [yield_applyPrefixes h.prefixes] at hclosed
  simp [takeGroup, written, writtenChain, hclosed, hcurrent]

/-- A level written out, given the kind read last and the tokens to come. These decide whether the
    placeholder of an empty group and the semi-colon read last belong to it. -/
def writtenBefore (previous : Option Kind) (rest : List Token) (reading : Reading) :
    List Element :=
  match previous, reading.chain with
  | some .opening, _ => if Token.groupEmpty rest then Term.emptyGroup.yield else []
  | some .semicolon, (operand, semicolon) :: _ =>
      operand.yield ++ if Token.separatesNothing rest then [] else [semicolon.element]
  | _, _ => reading.written

theorem writtenBefore_opening (rest : List Token) (reading : Reading) :
    reading.writtenBefore (some .opening) rest =
      if Token.groupEmpty rest then [⟨.term, Term.emptyGroupLabel⟩] else [] := by
  rw [writtenBefore, Term.emptyGroup, Term.yield_leaf]

end Reading

namespace Reader

/-- The levels around the open groups written out, the outermost first. -/
def writtenAround : List (Token × Reading) → List Element
  | [] => []
  | (_, outer) :: around => writtenAround around ++ outer.written

/-- The yield to be expected in the end: what was read, written out, and the spelling of the tokens
    to come. -/
def outlook (previous : Option Kind) (rest : List Token) (reader : Reader) : List Element :=
  writtenAround reader.around ++ reader.reading.writtenBefore previous rest ++
    Token.spelling previous rest

variable {previous : Option Kind} {reader : Reader} {token : Token} {rest : List Token}

/-- Unless a closing parenthesis comes next, all that was read is there to stay. -/
theorem Phase.writtenBefore_cons (h : Phase previous reader) (hkind : token.kind ≠ .closing) :
    reader.reading.writtenBefore previous (token :: rest) = reader.reading.written := by
  have hempty : Token.groupEmpty (token :: rest) = false := by simp [Token.groupEmpty, hkind]
  have hnothing : Token.separatesNothing (token :: rest) = false := by
    simp [Token.separatesNothing, hkind]
  cases h with
  | start | prefixed => rfl
  | opened => simp [Reading.writtenBefore, hempty, Reading.written, Reading.writtenChain]
  | separated _ =>
      simp [Reading.writtenBefore, hnothing, Reading.written, Reading.writtenChain]
  | combined hprevious _ => rcases hprevious with rfl | rfl <;> rfl
  | complete hprevious => rcases hprevious with rfl | rfl | rfl <;> rfl

/-- Where a level may end, what was read of it is the yield of its value. -/
theorem Sound.writtenBefore_end {value : Term} (h : Sound previous reader)
    (hvalue : reader.reading.value? = some value) (hcloses : Grammar.closes previous = true)
    (hnothing : Token.separatesNothing rest = true) :
    reader.reading.writtenBefore previous rest = value.yield := by
  have hchain := h.level.chain
  have hphase := h.phase
  cases hphase with
  | start => contradiction
  | opened | prefixed => exact absurd hcloses (by decide)
  | combined hprevious _ => rcases hprevious with rfl | rfl <;> exact absurd hcloses (by decide)
  | separated _ =>
      cases hvalue
      simp [Reading.writtenBefore, hnothing]
  | complete hprevious =>
      cases hvalue
      rw [Reading.yield_closeChain hchain]
      rcases hprevious with rfl | rfl | rfl <;>
        simp [Reading.writtenBefore, Reading.written]

/-- Where a group ends, what was read of it is the yield of its value, which is a placeholder if
    nothing was read. -/
theorem Sound.writtenBefore_closing (h : Sound previous reader)
    (hallowed : Grammar.allows previous .closing = true) (hkind : token.kind = .closing) :
    reader.reading.writtenBefore previous (token :: rest) =
      (reader.reading.value?.getD .emptyGroup).yield := by
  have hnothing : Token.separatesNothing (token :: rest) = true := by
    simp [Token.separatesNothing, hkind]
  have hphase := h.phase
  cases hphase with
  | start | prefixed => exact absurd hallowed (by decide)
  | combined hprevious _ => rcases hprevious with rfl | rfl <;> exact absurd hallowed (by decide)
  | opened => simp [Reading.writtenBefore, Token.groupEmpty, hkind, Reading.value?]
  | separated _ => exact h.writtenBefore_end rfl rfl hnothing
  | complete hprevious =>
      refine h.writtenBefore_end rfl ?_ hnothing
      rcases hprevious with rfl | rfl | rfl <;> rfl

/-- A semi-colon ends what was read of its level, or a placeholder if a statement is missing. -/
theorem Sound.yield_statement (h : Sound previous reader)
    (hallowed : Grammar.allows previous .semicolon = true) :
    (reader.reading.closeChain (reader.reading.current.getD .emptyStatement)).yield =
      reader.reading.written ++
        if Token.statementMissing previous then [⟨.term, Term.emptyStatementLabel⟩] else [] := by
  have hmissing : Term.emptyStatement.yield = [⟨.term, Term.emptyStatementLabel⟩] :=
    Term.yield_leaf _ _
  rw [Reading.yield_closeChain h.level.chain]
  have hphase := h.phase
  cases hphase with
  | start | opened | separated _ =>
      simp [Reading.written, Token.statementMissing, hmissing]
  | complete hprevious =>
      rcases hprevious with rfl | rfl | rfl <;>
        simp [Reading.written, Token.statementMissing]
  | prefixed => exact absurd hallowed (by decide)
  | combined hprevious _ => rcases hprevious with rfl | rfl <;> exact absurd hallowed (by decide)

/-- Reading a token that is no parenthesis moves it from the tokens to come to what was read. -/
theorem Sound.written_take (h : Sound previous reader)
    (hallowed : Grammar.allows previous token.kind = true)
    (hplain : token.kind.isBracket = false) :
    (reader.reading.take token).writtenBefore (some token.kind) rest ++
        Token.spelling (some token.kind) rest =
      reader.reading.written ++ Token.spelling previous (token :: rest) := by
  rcases reader with ⟨reading, around⟩
  have htakes := h.phase.takes hallowed hplain
  have hlevel := h.level
  generalize reading.take token = taken at htakes ⊢
  cases htakes with
  | infixOp hkind =>
      rcases hkind with hkind | hkind
      · simp [Reading.writtenBefore, Reading.written, Reading.writtenChain, Token.spelling, hkind]
      · simp [Reading.writtenBefore, Reading.written, Reading.writtenChain, Token.spelling, hkind]
  | suffixOp hkind =>
      have hoperand (operand : Term) := @Reading.yield_node_suffix token operand hkind
      simp [Reading.writtenBefore, Reading.written, hoperand, Token.spelling, hkind]
  | prefixOp hkind => simp [Reading.writtenBefore, Reading.written, Token.spelling, hkind]
  | var hkind =>
      have hname : (Reading.node token []).yield = [token.element] := Term.yield_leaf _ _
      have hoperand := Reading.yield_applyPrefixes hlevel.prefixes (Reading.node token [])
      rw [hname] at hoperand
      simp [Reading.writtenBefore, Reading.written, hoperand, Token.spelling, hkind]
  | semicolon hkind _ =>
      rw [hkind] at hallowed
      have hstatement := h.yield_statement hallowed
      simp [Reading.writtenBefore, hstatement, Token.spelling, hkind]

/-- The outlook stays the same from token to token. -/
theorem Sound.outlook_take? {next : Reader} (h : Sound previous reader)
    (hallowed : Grammar.allows previous token.kind = true)
    (htake : reader.take? token = some next) :
    next.outlook (some token.kind) rest = reader.outlook previous (token :: rest) := by
  rcases reader with ⟨reading, around⟩
  rcases take?_cases htake with
    ⟨hkind, rfl⟩ | ⟨opened, outer, around, rfl, hpairs, rfl⟩ | ⟨hkind, rfl⟩
  · -- The parenthesis itself does not show, but it brings the placeholder of an empty group.
    have hwritten : reading.writtenBefore previous (token :: rest) = reading.written :=
      h.phase.writtenBefore_cons (by simp [hkind])
    simp only [outlook, hwritten, hkind, Token.spelling, writtenAround,
      Reading.writtenBefore_opening]
    split <;> simp
  · -- What the group holds becomes its value, written where the level around waited for it.
    have hkind := (Token.kind_of_pairsWith hpairs).2
    obtain ⟨-, hcurrent, hlevel⟩ := h.around (opened, outer) List.mem_cons_self
    have hvalue : reading.writtenBefore previous (token :: rest) =
        (reading.value?.getD .emptyGroup).yield :=
      h.writtenBefore_closing (hkind ▸ hallowed) hkind
    have hgroup (inner : Term) : (outer.takeGroup inner).writtenBefore (some .closing) rest =
        outer.written ++ inner.yield :=
      Reading.written_takeGroup hlevel hcurrent inner
    simp only [outlook, hvalue, hkind, Token.spelling, writtenAround, hgroup, List.append_assoc]
  · have hclosing : token.kind ≠ .closing := by
      intro hclosing
      simp [hclosing, Kind.isBracket] at hkind
    have hwritten : reading.writtenBefore previous (token :: rest) = reading.written :=
      h.phase.writtenBefore_cons hclosing
    simp only [outlook, List.append_assoc, hwritten, h.written_take hallowed hkind]

/-- When all tokens have been read, the outlook of the beginning has become the yield of the
    value. -/
theorem Sound.outlook_takeAll? {final : Reader} {value : Term} {tokens : List Token}
    (h : Sound previous reader) (hlinked : Linked previous tokens)
    (htake : reader.takeAll? tokens = some final) (hvalue : final.value? = some value)
    (hcloses : Grammar.closes (lastKind previous tokens) = true) :
    value.yield = reader.outlook previous tokens := by
  induction tokens generalizing previous reader with
  | nil =>
      cases htake
      rcases final with ⟨reading, around⟩
      cases around with
      | cons entry around => contradiction
      | nil =>
          have hend : reading.writtenBefore previous [] = value.yield :=
            h.writtenBefore_end hvalue hcloses rfl
          simp [outlook, writtenAround, hend, Token.spelling]
  | cons token tokens ih =>
      obtain ⟨hallowed, hlinked⟩ := hlinked
      rw [takeAll?_cons, Option.bind_eq_some_iff] at htake
      obtain ⟨next, hnext, htake⟩ := htake
      rw [ih (h.take? hallowed hnext) hlinked htake hcloses]
      exact h.outlook_take? hallowed hnext

end Reader

/-- The yield of a parse is its sequence, spelled as a term shows it. -/
theorem yield_of_parse {tokens : List Token} {tree : Tree} (hparse : parse tokens = .ok tree) :
    tree.term.yield = Token.spelling none tokens := by
  obtain ⟨-, hlinked, hcloses⟩ := (validate_eq_ok_iff tokens).1 (validate_of_parse hparse)
  obtain ⟨reader, htake, hvalue⟩ := exists_reader_of_parse hparse
  rw [Reader.Sound.initial.outlook_takeAll? hlinked htake hvalue hcloses]
  rfl

/-- Placeholders show where something is missing, and the last semi-colon does not show. -/
theorem yield_placeholders :
    ∃ tree, parse [⟨.semicolon, ";", ""⟩, ⟨.opening, "(", "round"⟩, ⟨.closing, ")", "round"⟩,
      ⟨.dyad, "+", ""⟩, ⟨.var, "x", ""⟩, ⟨.semicolon, ";", ""⟩] = .ok tree ∧
      tree.term.yield = [⟨.term, "empty1"⟩, ⟨.semicolon, ";"⟩, ⟨.term, "empty2"⟩, ⟨.dyad, "+"⟩,
        ⟨.var, "x"⟩] := by
  refine (exists_parse_of_validate (List.cons_ne_nil _ _) ?_).imp fun tree hparse => ⟨hparse, ?_⟩
  · rfl
  · exact (yield_of_parse hparse).trans rfl

end OperatorTerms
