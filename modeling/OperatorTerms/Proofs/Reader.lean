/-
Module: OperatorTerms.Proofs.Reader
Layer: Proofs
Purpose: Meaning, one token at a time. The meaning of a sequence is given by recursion on its
  groups; a reader computes it from left to right, with the level it is on and the levels around
  the groups that are still open. The two agree on every sequence.
Imports: OperatorTerms.Reading
Main exports: Reader, Reader.take?, Reader.takeAll?, Reader.value?, Reader.take?_cases,
  Reader.arrangeFrom_bind, meaning?_eq
-/
import OperatorTerms.Reading

namespace OperatorTerms

/-- A sequence as far as it has been read. -/
structure Reader where
  /-- The level that is being read. -/
  reading : Reading := {}
  /-- The groups that are open, innermost first: the parenthesis that opened each, and what was
      read before it on the level around it. -/
  around : List (Token × Reading) := []

namespace Reader

/-- Reads one more token. There is no way on from a closing parenthesis without partner. -/
def take? (reader : Reader) (token : Token) : Option Reader :=
  match token.kind with
  | .opening => some ⟨{}, (token, reader.reading) :: reader.around⟩
  | .closing =>
      match reader.around with
      | [] => none
      | (opened, outer) :: around =>
          if opened.pairsWith token then
            some ⟨outer.takeGroup (reader.reading.value?.getD .emptyGroup), around⟩
          else
            none
  | _ => some { reader with reading := reader.reading.take token }

/-- Reads a sequence of tokens. -/
def takeAll? (reader : Reader) (tokens : List Token) : Option Reader :=
  tokens.foldlM take? reader

/-- The value of what was read, if no group is open. -/
def value? (reader : Reader) : Option Term :=
  match reader.around with
  | [] => reader.reading.value?
  | _ => none

theorem take?_opening {reader : Reader} {token : Token} (h : token.kind = .opening) :
    reader.take? token = some ⟨{}, (token, reader.reading) :: reader.around⟩ := by
  rw [take?, h]

theorem take?_closing {reading outer : Reading} {opened token : Token}
    {around : List (Token × Reading)} (h : token.kind = .closing) :
    take? ⟨reading, (opened, outer) :: around⟩ token =
      if opened.pairsWith token then
        some ⟨outer.takeGroup (reading.value?.getD .emptyGroup), around⟩
      else
        none := by
  rw [take?, h]

theorem take?_plain {reader : Reader} {token : Token} (h : token.kind.isBracket = false) :
    reader.take? token = some { reader with reading := reader.reading.take token } := by
  rw [take?]
  split
  · simp_all [Kind.isBracket]
  · simp_all [Kind.isBracket]
  · rfl

/-- There are three ways on: a group is opened, the innermost one is closed, or a token is read on
    the level. -/
theorem take?_cases {reader next : Reader} {token : Token} (h : reader.take? token = some next) :
    (token.kind = .opening ∧ next = ⟨{}, (token, reader.reading) :: reader.around⟩) ∨
      (∃ opened outer around, reader.around = (opened, outer) :: around ∧
        opened.pairsWith token = true ∧
          next = ⟨outer.takeGroup (reader.reading.value?.getD .emptyGroup), around⟩) ∨
      (token.kind.isBracket = false ∧
        next = { reader with reading := reader.reading.take token }) := by
  rcases reader with ⟨reading, around⟩
  rcases token.kind.bracket_or_plain with hkind | hkind | hkind
  · rw [take?_opening hkind] at h
    cases h
    exact .inl ⟨hkind, rfl⟩
  · cases around with
    | nil => simp [take?, hkind] at h
    | cons entry around =>
        rw [take?_closing hkind] at h
        split at h
        · rename_i hpairs
          cases h
          exact .inr (.inl ⟨_, _, _, rfl, hpairs, rfl⟩)
        · contradiction
  · rw [take?_plain hkind] at h
    cases h
    exact .inr (.inr ⟨hkind, rfl⟩)

theorem takeAll?_cons (reader : Reader) (token : Token) (rest : List Token) :
    reader.takeAll? (token :: rest) = (reader.take? token).bind (·.takeAll? rest) := rfl

/-- Reading goes on from where the first part has led. -/
theorem takeAll?_append (reader : Reader) (tokens others : List Token) :
    reader.takeAll? (tokens ++ others) =
      (reader.takeAll? tokens).bind (·.takeAll? others) :=
  List.foldlM_append

/-! ### Readers and arrangements -/

theorem readAll_append (reading : Reading) (pieces others : List Piece) :
    Piece.readAll reading (pieces ++ others) =
      Piece.readAll (Piece.readAll reading pieces) others := by
  induction pieces generalizing reading with
  | nil => simp [Piece.readAll]
  | cons piece pieces ih => simp [Piece.readAll, ih]

/-- The reader that has read the pieces of an arrangement that is under way. -/
def ofPieces (around : List OpenGroup) (level : List Piece) : Reader where
  reading := Piece.readAll {} level.reverse
  around := around.map fun group => (group.opened, Piece.readAll {} group.before.reverse)

theorem readAll_reverse_cons (piece : Piece) (level : List Piece) :
    Piece.readAll {} (piece :: level).reverse =
      piece.read (Piece.readAll {} level.reverse) := by
  rw [List.reverse_cons, readAll_append, Piece.readAll, Piece.readAll]

/-- Arranging the rest of a sequence and then reading all of it gives what reading the rest token
    by token gives. -/
theorem arrangeFrom_bind (around : List OpenGroup) (level : List Piece) (tokens : List Token) :
    (Piece.arrangeFrom around level tokens).bind (fun pieces => (Piece.readAll {} pieces).value?) =
      ((ofPieces around level).takeAll? tokens).bind value? := by
  induction tokens generalizing around level with
  | nil =>
      cases around with
      | nil => rfl
      | cons group around => rfl
  | cons token rest ih =>
      rw [takeAll?_cons]
      rcases token.kind.bracket_or_plain with hkind | hkind | hkind
      · have harrange : Piece.arrangeFrom around level (token :: rest) =
            Piece.arrangeFrom (⟨token, level⟩ :: around) [] rest := by
          simp [Piece.arrangeFrom, hkind]
        rw [harrange, ih, take?_opening hkind]
        simp [ofPieces, Piece.readAll]
      · cases around with
        | nil => simp [Piece.arrangeFrom, ofPieces, take?, hkind]
        | cons group around =>
            have harrange : Piece.arrangeFrom (group :: around) level (token :: rest) =
                if group.opened.pairsWith token then
                  Piece.arrangeFrom around
                    (.group group.opened token level.reverse :: group.before) rest
                else
                  none := by
              simp [Piece.arrangeFrom, hkind]
            rw [harrange, ofPieces, List.map_cons, take?_closing hkind]
            by_cases hpairs : group.opened.pairsWith token = true
            · rw [if_pos hpairs, if_pos hpairs, ih, ofPieces, readAll_reverse_cons, Piece.read]
              rfl
            · rw [if_neg hpairs, if_neg hpairs]
              rfl
      · have harrange : Piece.arrangeFrom around level (token :: rest) =
            Piece.arrangeFrom around (.plain token :: level) rest := by
          cases hcase : token.kind <;> simp_all [Piece.arrangeFrom, Kind.isBracket]
        rw [harrange, ih, take?_plain hkind, ofPieces, readAll_reverse_cons, Piece.read]
        rfl

end Reader

/-- The meaning of a sequence is the value that a reader has for it in the end. -/
theorem meaning?_eq (tokens : List Token) :
    meaning? tokens = (({} : Reader).takeAll? tokens).bind Reader.value? :=
  Reader.arrangeFrom_bind [] [] tokens

end OperatorTerms
