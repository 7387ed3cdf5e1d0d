/-
Module: OperatorTerms.Proofs.Adjacency
Layer: Proofs
Purpose: What validation asks of a sequence besides its parentheses. The first token, the pairs of
  neighbours and the last token are looked at one kind at a time, so the three checks come to two
  statements about the kinds in a row: each may follow the one before it, where nothing stands
  before the first, and the last one may close an expression.
Imports: OperatorTerms.Validation
Main exports: Linked, lastKind, Grammar.closes, linked_append, bind_eq_ok_iff, validate_eq_ok_iff
-/
import OperatorTerms.Validation

namespace OperatorTerms

/-- Every token may follow the one before it. The first argument is the kind of what stands before
    the first token, if anything does. -/
def Linked (previous : Option Kind) : List Token → Prop
  | [] => True
  | token :: rest => Grammar.allows previous token.kind = true ∧ Linked (some token.kind) rest

/-- The kind of the last token; without tokens, of what stands before them. -/
def lastKind (previous : Option Kind) : List Token → Option Kind
  | [] => previous
  | token :: rest => lastKind (some token.kind) rest

/-- Whether an expression may end after a token of the given kind, or without any token. -/
def Grammar.closes : Option Kind → Bool
  | none => true
  | some kind => Grammar.last.contains kind

/-- No token of kind `Kind.term` may stand anywhere. -/
theorem Grammar.allows_term (previous : Option Kind) : Grammar.allows previous .term = false := by
  cases previous with
  | none => decide
  | some kind => cases kind <;> decide

theorem Linked.kind_ne_term {previous : Option Kind} {tokens : List Token} {token : Token}
    (h : Linked previous tokens) (hmem : token ∈ tokens) : token.kind ≠ .term := by
  induction tokens generalizing previous with
  | nil => contradiction
  | cons first rest ih =>
      obtain ⟨hallowed, hrest⟩ := h
      rcases List.mem_cons.1 hmem with rfl | hmem
      · intro hkind
        rw [hkind, Grammar.allows_term] at hallowed
        contradiction
      · exact ih hrest hmem

theorem lastKind_append (previous : Option Kind) (tokens others : List Token) :
    lastKind previous (tokens ++ others) = lastKind (lastKind previous tokens) others := by
  induction tokens generalizing previous with
  | nil => rfl
  | cons token tokens ih => exact ih (some token.kind)

theorem lastKind_eq_of_ne_nil {tokens : List Token} (hne : tokens ≠ [])
    (previous other : Option Kind) : lastKind previous tokens = lastKind other tokens := by
  cases tokens with
  | nil => contradiction
  | cons token rest => rfl

/-- Two linked sequences can be joined where the second may follow the end of the first. -/
theorem linked_append {previous : Option Kind} {tokens others : List Token} :
    Linked previous (tokens ++ others) ↔
      Linked previous tokens ∧ Linked (lastKind previous tokens) others := by
  induction tokens generalizing previous with
  | nil => simp [Linked, lastKind]
  | cons token tokens ih => simp [Linked, lastKind, ih, and_assoc]

theorem lastKind_of_getLast? {previous : Option Kind} {tokens : List Token} {last : Token}
    (h : tokens.getLast? = some last) : lastKind previous tokens = some last.kind := by
  obtain ⟨front, rfl⟩ := List.getLast?_eq_some_iff.1 h
  rw [lastKind_append]
  rfl

/-- A computation succeeds when its two parts do. -/
theorem bind_eq_ok_iff {ε α β : Type} {part : Except ε α} {rest : α → Except ε β}
    {result : β} :
    part >>= rest = .ok result ↔ ∃ value, part = .ok value ∧ rest value = .ok result := by
  cases part with
  | error failure => simp [bind, Except.bind]
  | ok value => simp [bind, Except.bind]

/-- A check that returns nothing succeeds in one way only. -/
theorem check_bind_eq_ok_iff {ε β : Type} {check : Except ε Unit} {rest : Unit → Except ε β}
    {result : β} : check >>= rest = .ok result ↔ check = .ok () ∧ rest () = .ok result := by
  rw [bind_eq_ok_iff]
  exact ⟨fun ⟨(), hcheck, hrest⟩ => ⟨hcheck, hrest⟩, fun h => ⟨(), h⟩⟩

@[simp]
theorem map_token_from (start : Position) (tokens : List Token) :
    (Placed.from start tokens).map Placed.token = tokens := by
  induction tokens generalizing start with
  | nil => rfl
  | cons token tokens ih => simp [Placed.from, ih]

namespace Validation

theorem checkFirst_eq_ok_iff {token : Token} :
    checkFirst token = .ok () ↔ Grammar.allows none token.kind = true := by
  rw [checkFirst, Grammar.allows, Grammar.expectedAfter]
  split
  · simp [*]
  · simp [*]

theorem checkNeighbours_eq_ok_iff (previous : Token) (rest : List Placed) :
    checkNeighbours previous rest = .ok () ↔
      Linked (some previous.kind) (rest.map Placed.token) := by
  induction rest generalizing previous with
  | nil => simp [checkNeighbours, Linked]
  | cons next rest ih =>
      rw [checkNeighbours, List.map_cons, Linked, Grammar.allows, Grammar.expectedAfter]
      split
      · simp [*]
      · simp [*]

theorem checkLast_eq_ok_iff (first : Placed) (rest : List Placed) :
    checkLast (rest.getLastD first) = .ok () ↔
      Grammar.closes (lastKind (some first.token.kind) (rest.map Placed.token)) = true := by
  induction rest generalizing first with
  | nil =>
      rw [List.getLastD_nil, checkLast, List.map_nil, lastKind, Grammar.closes]
      split
      · simp [*]
      · simp [*]
  | cons next rest ih =>
      rw [List.getLastD_cons, ih]
      rfl

end Validation

/-- Validation succeeds when the parentheses match, the tokens are linked and the last of them may
    close an expression. -/
theorem validate_eq_ok_iff (tokens : List Token) :
    validate tokens = .ok () ↔
      Nesting.check tokens = .ok () ∧ Linked none tokens ∧
        Grammar.closes (lastKind none tokens) = true := by
  cases tokens with
  | nil => simp [validate, Placed.all, Placed.from, Nesting.check, Nesting.scan, Linked, lastKind,
      Grammar.closes, bind, Except.bind]
  | cons token rest =>
      have hrest := map_token_from 2 rest
      have hvalidate : validate (token :: rest) = (do
          Nesting.check (token :: rest)
          Validation.checkFirst token
          Validation.checkNeighbours token (Placed.from 2 rest)
          Validation.checkLast ((Placed.from 2 rest).getLastD ⟨1, token⟩)) := rfl
      have hneighbours := Validation.checkNeighbours_eq_ok_iff token (Placed.from 2 rest)
      have hlast := Validation.checkLast_eq_ok_iff ⟨1, token⟩ (Placed.from 2 rest)
      rw [hrest] at hneighbours hlast
      rw [hvalidate]
      simp only [check_bind_eq_ok_iff, Validation.checkFirst_eq_ok_iff, hneighbours, hlast,
        Linked, lastKind, and_assoc]

end OperatorTerms
