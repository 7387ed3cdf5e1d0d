/-
Module: OperatorTerms.Proofs.LineAccess
Layer: Proofs
Purpose: The processing of a line with every access checked, down to the parser and the tree. The
  code to be underlined is looked up by the position of the error, which is one more than its index;
  as errors lie within the sequence, the index is one of the line, and taking it to be no greater
  than the last one changes nothing. So there is a result for every sequence of tokens, for every
  tree and title, and for every line, and it is the one that is computed without checks.
Imports: OperatorTerms.Proofs.CodeReading, OperatorTerms.Proofs.ParserAccess,
  OperatorTerms.Session.Line
Main exports: parseValidated?, Line.excerpt?, Line.block?, parseValidated_result,
  Line.excerpt?_eq, Line.block?_eq, Line.exists_code_of_rejected, no_access_fails
-/
import OperatorTerms.Proofs.CodeReading
import OperatorTerms.Proofs.ParserAccess
import OperatorTerms.Session.Line

namespace OperatorTerms

/-- Validates a sequence and parses it if it is well formed, with every access of the parser
    checked. -/
def parseValidated? (tokens : List Token) : Option (Outcome Tree) :=
  let validation := validateTraced tokens
  match validation.result with
  | .error error => some ⟨validation.log, .error error⟩
  | .ok () => do
      let parsing ← parseTraced? tokens
      some ⟨validation.log ++ parsing.log, parsing.result⟩

namespace Line

/-- The codes before the one with the given index. -/
def before? (line : Line) (index : Nat) : Option (List String) :=
  if index ≤ line.codes.length then some (line.codes.take index) else none

/-- The three lines printed for a rejected line. -/
def excerpt? (line : Line) (error : SyntaxError) : Option String := do
  let index ← difference? error.position 1
  let final ← difference? line.codes.length 1
  let before ← line.before? (min index final)
  let code ← line.codes[min index final]?
  let padding := before.foldl (fun column code => column + (code.utf8ByteSize + 1)) 0
  let underline := Text.spaces line.gutter.utf8ByteSize ++ "| " ++ Text.spaces padding
    ++ Text.run '^' code.utf8ByteSize ++ "--- " ++ error.message
  some (line.quoted ++ "\n" ++ underline ++ "\n" ++ "error: " ++ error.describe ++ "\n")

/-- Processes a line. -/
def block? (line : Line) : Option Block :=
  if line.isSilent then
    some {}
  else
    match Token.ofCodes line.codes with
    | .error error => some { output := "error: " ++ error.message ++ "\n", failed := true }
    | .ok tokens => do
        let outcome ← parseValidated? tokens
        match outcome.result with
        | .error error =>
            let excerpt ← line.excerpt? error
            some { output := excerpt, log := outcome.log, failed := true }
        | .ok tree =>
            let shown ← tree.display?
            let drawn ← tree.render? line.codes
            some { output := drawn, log := outcome.log ++ [.lineParsed line.number shown] }

end Line

variable {tokens : List Token} {tree : Tree} {error : SyntaxError} {line : Line}

theorem parseValidated?_eq (tokens : List Token) :
    parseValidated? tokens = some (parseValidated tokens) := by
  rw [parseValidated?, parseValidated, parseTraced?_eq]
  cases (validateTraced tokens).result <;> rfl

theorem parseValidated_result (tokens : List Token) :
    (parseValidated tokens).result = (validate tokens >>= fun _ => parse tokens) := by
  simp only [parseValidated, validateTraced]
  cases validate tokens <;> rfl

/-- The error that a sequence is rejected with lies within the sequence. -/
theorem position_bounds_of_parseValidated (hne : tokens ≠ [])
    (h : (parseValidated tokens).result = .error error) :
    1 ≤ error.position ∧ error.position ≤ tokens.length := by
  rw [parseValidated_result] at h
  cases hvalidate : validate tokens with
  | error other =>
      rw [hvalidate] at h
      cases h
      exact (truthful_of_validate_error hvalidate).1.position_bounds
  | ok _ =>
      rw [hvalidate] at h
      exact (truthful_of_parse_error hne h).position_bounds

theorem whole_of_parseValidated (h : (parseValidated tokens).result = .ok tree) : tree.Whole := by
  rw [parseValidated_result] at h
  obtain ⟨-, -, hparse⟩ := bind_eq_ok_iff.1 h
  exact whole_of_parse hparse

namespace Line

/-- The index of a code is not cut back to the last one. -/
theorem index_eq {position : Position} (hle : position ≤ line.codes.length) :
    line.index position = position - 1 :=
  Nat.min_eq_left (Nat.sub_le_sub_right hle 1)

theorem excerpt?_eq (hpositive : 1 ≤ error.position) (hle : error.position ≤ line.codes.length) :
    line.excerpt? error = some (line.excerpt error) := by
  have hindex := index_eq hle
  have hlt : line.index error.position < line.codes.length :=
    hindex ▸ Nat.sub_one_lt_of_le hpositive hle
  have hcode := List.getElem?_eq_getElem hlt
  have hbefore : line.before? (line.index error.position) =
      some (line.codes.take (line.index error.position)) := if_pos (Nat.le_of_lt hlt)
  have hmin : min (error.position - 1) (line.codes.length - 1) = line.index error.position := rfl
  simp only [excerpt?, difference?_of_le hpositive, difference?_of_le (Nat.le_trans hpositive hle),
    Option.bind_eq_bind, Option.bind_some, hmin, hbefore, hcode, excerpt, underline, column,
    codeWidth, Option.getD_some]

/-- The error that a line is rejected with lies within the line. -/
theorem position_bounds_of_rejected (hloud : line.isSilent = false)
    (hcodes : Token.ofCodes line.codes = .ok tokens)
    (hrejected : (parseValidated tokens).result = .error error) :
    1 ≤ error.position ∧ error.position ≤ line.codes.length := by
  have hne : line.codes ≠ [] := by
    intro hnil
    rw [isSilent, hnil] at hloud
    contradiction
  have hbounds := position_bounds_of_parseValidated (Token.ofCodes_ne_nil hcodes hne) hrejected
  rwa [Token.length_of_ofCodes hcodes] at hbounds

/-- The position of the error is the place of a code, counted from one. -/
theorem exists_code_of_rejected (hloud : line.isSilent = false)
    (hcodes : Token.ofCodes line.codes = .ok tokens)
    (hrejected : (parseValidated tokens).result = .error error) :
    ∃ front code back, line.codes = front ++ code :: back ∧
      error.position = front.length + 1 := by
  obtain ⟨hpositive, hle⟩ := position_bounds_of_rejected hloud hcodes hrejected
  have hlt : error.position - 1 < line.codes.length := Nat.sub_one_lt_of_le hpositive hle
  refine ⟨line.codes.take (error.position - 1), line.codes[error.position - 1],
    line.codes.drop (error.position - 1 + 1), ?_, ?_⟩
  · rw [List.getElem_cons_drop, List.take_append_drop]
  · rw [List.length_take_of_le (Nat.le_of_lt hlt), Nat.sub_add_cancel hpositive]

/-- What is written about a rejected line names a code of the line. -/
theorem excerpt?_of_rejected (hloud : line.isSilent = false)
    (hcodes : Token.ofCodes line.codes = .ok tokens)
    (hrejected : (parseValidated tokens).result = .error error) :
    line.index error.position = error.position - 1 ∧
      line.excerpt? error = some (line.excerpt error) := by
  obtain ⟨hpositive, hle⟩ := position_bounds_of_rejected hloud hcodes hrejected
  exact ⟨index_eq hle, excerpt?_eq hpositive hle⟩

theorem block?_eq (line : Line) : line.block? = some line.block := by
  rw [block?, block]
  cases hloud : line.isSilent with
  | true => rfl
  | false =>
      cases hcodes : Token.ofCodes line.codes with
      | error error => rfl
      | ok tokens =>
          simp only [parseValidated?_eq, Option.bind_eq_bind, Option.bind_some]
          cases hresult : (parseValidated tokens).result with
          | error error =>
              simp only [(excerpt?_of_rejected hloud hcodes hresult).2, Option.bind_some]
              rfl
          | ok tree =>
              have hwhole := whole_of_parseValidated hresult
              simp only [hwhole.display?_eq, hwhole.render?_eq, Option.bind_some]
              rfl

end Line

/-- Whatever the tokens, the title and the line, no token, node, row or code is looked up that is not
    there, and no difference is below zero. The index of the code that an error is about is the one
    before its position, without being cut back. -/
theorem no_access_fails :
    (∀ tokens, parseTraced? tokens = some (parseTraced tokens)) ∧
    (∀ tokens tree, parse tokens = .ok tree →
      tree.display? = some tree.display ∧
      tree.postOrder? = some tree.postOrder ∧
      tree.size? = some tree.size ∧
      (∀ id < tree.forest.size, tree.forest.depth? id = some (tree.depth id)) ∧
      tree.maxDepth? = some tree.maxDepth ∧
      tree.leaves? = some tree.leaves ∧
      ∀ title, tree.render? title = some (tree.render title)) ∧
    ∀ line : Line, line.block? = some line.block ∧
      ∀ tokens error, line.isSilent = false → Token.ofCodes line.codes = .ok tokens →
        (parseValidated tokens).result = .error error →
          line.index error.position = error.position - 1 ∧
            line.excerpt? error = some (line.excerpt error) := by
  refine ⟨parseTraced?_eq, ?_, ?_⟩
  · intro tokens tree hparse
    have hwhole := whole_of_parse hparse
    exact ⟨hwhole.display?_eq, hwhole.postOrder?_eq, hwhole.size?_eq,
      fun id => hwhole.owned.depth?_eq, hwhole.maxDepth?_eq, hwhole.leaves?_eq, hwhole.render?_eq⟩
  · intro line
    exact ⟨line.block?_eq, fun _ _ => Line.excerpt?_of_rejected⟩

/-- An error in the last code of a line, and a tree of two rows under a title of one empty word. -/
theorem no_access_fails_at_end_of_line :
    (Line.index ⟨7, ["b(", "v1", "B]"]⟩ 3 = 2 ∧
      Line.excerpt? ⟨7, ["b(", "v1", "B]"]⟩ ⟨3, .parenthesisMismatch "b(" 1 "B]" 3⟩ =
        some ("7| b( v1 B]\n" ++
          " |       ^^--- Parenthesis mismatch between b( at position 1 and B] at position 3.\n" ++
          "error: structural error: " ++
          "Parenthesis mismatch between b( at position 1 and B] at position 3.\n")) ∧
    Tree.render? ⟨⟨#[⟨.var, "v1", [], some 1⟩, ⟨.prefixOp, "p2", [0], none⟩]⟩, 1⟩ [""] =
      some "\n p2\n v1\n" := by
  obtain ⟨-, htrees, hlines⟩ := no_access_fails
  constructor
  · have hcodes : Token.ofCodes ["b(", "v1", "B]"] =
        .ok [⟨.opening, "b(", "("⟩, ⟨.var, "v1", ""⟩, ⟨.closing, "B]", "]"⟩] := by
      decide +kernel
    have hrejected : (parseValidated
        [⟨.opening, "b(", "("⟩, ⟨.var, "v1", ""⟩, ⟨.closing, "B]", "]"⟩]).result =
        .error ⟨3, .parenthesisMismatch "b(" 1 "B]" 3⟩ := by
      decide +kernel
    obtain ⟨-, hexcerpts⟩ := hlines ⟨7, ["b(", "v1", "B]"]⟩
    obtain ⟨hindex, hexcerpt⟩ := hexcerpts _ _ (by decide +kernel) hcodes hrejected
    refine ⟨hindex, hexcerpt.trans ?_⟩
    decide +kernel
  · have hparse : parse [⟨.prefixOp, "p2", ""⟩, ⟨.var, "v1", ""⟩] =
        .ok ⟨⟨#[⟨.var, "v1", [], some 1⟩, ⟨.prefixOp, "p2", [0], none⟩]⟩, 1⟩ := by
      decide +kernel
    obtain ⟨-, -, -, -, -, -, hrender⟩ := htrees _ _ hparse
    rw [hrender]
    decide +kernel

end OperatorTerms
