/-
Module: OperatorTerms.Proofs.SessionOutput
Layer: Proofs
Purpose: What a session prints. Every line is processed on its own: what it prints depends on its
  codes, and on its number only where the number is quoted, which is when the codes are tokens but
  no expression. There the error is the validator's, so it never is that tokens are missing, and a
  line that passes validation always has a tree. All that is printed is written out here, but for
  the rows of a drawing. The output is what the lines print, in their order, up to the first line
  that cannot be read, and the exit code tells whether all went well.
Imports: OperatorTerms.Proofs.SessionText, OperatorTerms.Proofs.Underline,
  OperatorTerms.Proofs.ValidationFailure
Main exports: Worded, exists_worded_of_validate_error, Line.excerpt_eq, Session.Silent,
  Session.Prints, Session.prints_block, Session.Prints.unique, Session.Prints.renumber,
  Session.run_of_cut
-/
import OperatorTerms.Proofs.SessionText
import OperatorTerms.Proofs.Underline
import OperatorTerms.Proofs.ValidationFailure

namespace OperatorTerms

/-! ### The validator's errors -/

/-- What the validator may find, with the name of its family and its wording. -/
inductive Worded : Reason → String → String → Prop where
  | parenthesisMismatch {opened closed : String} {openedAt closedAt : Position} :
      Worded (.parenthesisMismatch opened openedAt closed closedAt) "structural"
        ("Parenthesis mismatch between " ++ opened ++ " at position " ++ toString openedAt
          ++ " and " ++ closed ++ " at position " ++ toString closedAt ++ ".")
  | unexpectedClosing {closed : String} {position : Position} {expected : KindSet} :
      Worded (.unexpectedClosing closed position expected) "structural"
        ("Unexpected closing parenthesis: " ++ closed ++ " at position " ++ toString position
          ++ ". Expected: " ++ expected.describe ++ ".")
  | unclosed {opened : String} {position : Position} :
      Worded (.unclosed opened position) "structural"
        ("No closing parenthesis matching " ++ opened ++ " at position " ++ toString position
          ++ ".")
  | unexpectedStart {kind : Kind} {label : String} {expected : KindSet} :
      Worded (.unexpectedStart ⟨kind, label⟩ expected) "boundary"
        ("Expression must start with " ++ expected.describe ++ ", not " ++ kind.name ++ ": "
          ++ label ++ ".")
  | unexpectedElement {kind kind' : Kind} {label label' : String} {position : Position}
      {expected : KindSet} :
      Worded (.unexpectedElement ⟨kind, label⟩ ⟨kind', label'⟩ position expected) "transition"
        ("Unexpected " ++ kind.name ++ ": " ++ label ++ " following " ++ kind'.name ++ ": "
          ++ label' ++ " at position " ++ toString position ++ ". Expected: "
          ++ expected.describe ++ ".")
  | unexpectedEnd {kind : Kind} {label : String} {expected : KindSet} :
      Worded (.unexpectedEnd ⟨kind, label⟩ expected) "boundary"
        ("Expected: " ++ expected.describe ++ " after final " ++ kind.name ++ ": " ++ label
          ++ ".")

/-- The texts are those that the program has for the reason. -/
theorem Worded.texts_eq {reason : Reason} {family wording : String}
    (h : Worded reason family wording) :
    family = reason.errorClass.name ∧ wording = reason.message := by
  unfold Reason.message
  cases h with
  | parenthesisMismatch | unexpectedClosing | unclosed => exact ⟨rfl, rfl⟩
  | unexpectedStart | unexpectedElement | unexpectedEnd =>
      refine ⟨rfl, ?_⟩
      simp only [Element.text, String.append_assoc]

/-- The validator never asks for more tokens. -/
theorem Worded.errorClass_ne {reason : Reason} {family wording : String}
    (h : Worded reason family wording) : reason.errorClass ≠ .incomplete := by
  cases h <;> simp [Reason.errorClass]

/-- There are words for whatever the validator finds. -/
theorem exists_worded_of_validate_error {tokens : List Token} {error : SyntaxError}
    (h : validate tokens = .error error) :
    ∃ family wording, Worded error.reason family wording := by
  rcases validate_error_cases h with
    hcheck | ⟨-, first, rest, -, hfirst | ⟨-, hneighbours⟩ | ⟨-, hlast⟩⟩
  · rcases Nesting.check_error hcheck with hscan | ⟨innermost, outer, -, rfl⟩
    · obtain ⟨_, _, _, _, -, -, hstep⟩ := Nesting.scan_error hscan
      rcases Nesting.step_error_cases hstep with ⟨-, ⟨-, rfl⟩ | ⟨_, _, -, -, rfl⟩⟩
      · exact ⟨_, _, .unexpectedClosing⟩
      · exact ⟨_, _, .parenthesisMismatch⟩
    · exact ⟨_, _, .unclosed⟩
  · obtain ⟨-, rfl⟩ := Validation.checkFirst_error hfirst
    exact ⟨_, _, .unexpectedStart⟩
  · obtain ⟨_, _, _, _, -, -, -, -, rfl⟩ := Validation.checkNeighbours_error hneighbours
    exact ⟨_, _, .unexpectedElement⟩
  · obtain ⟨-, rfl⟩ := Validation.checkLast_error hlast
    exact ⟨_, _, .unexpectedEnd⟩

/-! ### Blocks of text -/

/-- What is printed about a code: the line behind its number, the carets below the code, and the
    error with its family. -/
theorem Line.excerpt_eq (number : Nat) {error : SyntaxError} {front back : List String}
    {code family wording : String} (hposition : error.position = front.length + 1)
    (hworded : Worded error.reason family wording) :
    (⟨number, front ++ code :: back⟩ : Line).excerpt error =
      toString number ++ "| " ++ " ".intercalate (front ++ code :: back) ++ "\n"
        ++ String.ofList (List.replicate (toString number).utf8ByteSize ' ') ++ "| "
        ++ String.ofList (List.replicate (String.join (front.map (· ++ " "))).utf8ByteSize ' ')
        ++ String.ofList (List.replicate code.utf8ByteSize '^') ++ "--- " ++ wording ++ "\n"
        ++ "error: " ++ family ++ " error: " ++ wording ++ "\n" := by
  obtain ⟨rfl, rfl⟩ := hworded.texts_eq
  have hcodes : (⟨number, front ++ code :: back⟩ : Line).codes = front ++ code :: back := rfl
  simp only [excerpt, quoted, underline, gutter, index_of_codes hcodes hposition,
    column_eq hcodes, codeWidth_eq hcodes, Text.spaces, Text.run, SyntaxError.describe,
    SyntaxError.errorClass, SyntaxError.message, String.append_assoc]

/-- A titled drawing is the title on a line of its own, and then the drawing. -/
theorem Tree.render_of_ne_nil (tree : Tree) {title : List String} (h : title ≠ []) :
    tree.render title = " ".intercalate title ++ "\n" ++ tree.render [] := by
  cases title with
  | nil => contradiction
  | cons word words =>
      simp only [render, Layout.heading, List.map_append, String.join_append, List.map_cons,
        List.map_nil, String.join_cons, String.join_nil, List.nil_append, String.append_empty]

namespace Session

/-! ### What a line prints -/

/-- Codes that are passed over: there are none, or the first begins with `#`. -/
inductive Silent : List String → Prop where
  | blank : Silent []
  | comment {code : String} {codes : List String} : code.toList.head? = some '#' →
      Silent (code :: codes)

/-- What a line prints, given its number and its codes, and whether it is rejected. -/
inductive Prints (number : Nat) : List String → String → Bool → Prop where
  | silent {codes : List String} : Silent codes → Prints number codes "" false
  /-- The first code that is no token is all that a line is told about. -/
  | badCode {front back : List String} {code wording : String} :
      ¬ Silent (front ++ code :: back) →
        (∀ good ∈ front, ∃ token, Token.ofCode good = .ok token) → Token.Refused code wording →
          Prints number (front ++ code :: back) ("error: " ++ wording ++ "\n") true
  /-- The line is quoted behind its number, with carets below the code that the validator's error is
      about, each byte of it and of what stands in front of it taking one column. -/
  | invalid {front back : List String} {code family wording : String} {tokens : List Token}
      {error : SyntaxError} : ¬ Silent (front ++ code :: back) →
      Token.ofCodes (front ++ code :: back) = .ok tokens → validate tokens = .error error →
        error.position = front.length + 1 → Worded error.reason family wording →
          error.errorClass ≠ .incomplete →
            Prints number (front ++ code :: back)
              (toString number ++ "| " ++ " ".intercalate (front ++ code :: back) ++ "\n"
                ++ String.ofList (List.replicate (toString number).utf8ByteSize ' ') ++ "| "
                ++ String.ofList
                  (List.replicate (String.join (front.map (· ++ " "))).utf8ByteSize ' ')
                ++ String.ofList (List.replicate code.utf8ByteSize '^') ++ "--- " ++ wording ++ "\n"
                ++ "error: " ++ family ++ " error: " ++ wording ++ "\n") true
  | accepted {codes : List String} {tokens : List Token} {tree : Tree} : ¬ Silent codes →
      Token.ofCodes codes = .ok tokens → parse tokens = .ok tree →
        Prints number codes (" ".intercalate codes ++ "\n" ++ tree.render []) false

/-- Codes of tokens that are no expression. -/
def Invalid (codes : List String) : Prop :=
  ∃ tokens error, Token.ofCodes codes = .ok tokens ∧ validate tokens = .error error

variable {number other : Nat} {codes : List String} {output output' : String}
  {rejected rejected' : Bool}

theorem isSilent_iff : (⟨number, codes⟩ : Line).isSilent = true ↔ Silent codes := by
  constructor
  · intro h
    cases codes with
    | nil => exact .blank
    | cons code codes => exact .comment (by simpa [Line.isSilent] using h)
  · intro h
    cases h with
    | blank => rfl
    | comment hcode => simpa [Line.isSilent] using hcode

instance (codes : List String) : Decidable (Silent codes) :=
  decidable_of_iff ((⟨0, codes⟩ : Line).isSilent = true) isSilent_iff

theorem ne_nil_of_not_silent (h : ¬ Silent codes) : codes ≠ [] := by
  rintro rfl
  exact h .blank

/-- A line prints what is said here. -/
theorem prints_block (line : Line) :
    Prints line.number line.codes line.block.output line.block.failed := by
  rcases line with ⟨number, codes⟩
  simp only [Line.block]
  cases hsilent : (⟨number, codes⟩ : Line).isSilent with
  | true => exact .silent (isSilent_iff.1 hsilent)
  | false =>
      have hloud : ¬ Silent codes := by
        intro h
        rw [isSilent_iff.2 h] at hsilent
        contradiction
      cases hcodes : Token.ofCodes codes with
      | error error =>
          obtain ⟨front, code, back, rfl, hfront, hcode⟩ := Token.ofCodes_error hcodes
          exact .badCode hloud hfront ((Token.refused_iff _ _).2 ⟨error, hcode, rfl⟩)
      | ok tokens =>
          simp only [parseValidated_result]
          cases hvalidate : validate tokens with
          | error error =>
              have hresult : (parseValidated tokens).result = .error error := by
                rw [parseValidated_result, hvalidate]
                rfl
              obtain ⟨front, code, back, rfl, hposition⟩ :=
                Line.exists_code_of_rejected hsilent hcodes hresult
              obtain ⟨family, wording, hworded⟩ := exists_worded_of_validate_error hvalidate
              simp only [bind, Except.bind, Line.excerpt_eq number hposition hworded]
              exact .invalid hloud hcodes hvalidate hposition hworded hworded.errorClass_ne
          | ok _ =>
              have hne := ne_nil_of_not_silent hloud
              obtain ⟨tree, hparse⟩ :=
                exists_parse_of_validate (Token.ofCodes_ne_nil hcodes hne) hvalidate
              have hresult : (Except.ok () >>= fun _ : Unit => parse tokens) = .ok tree := hparse
              simp only [hresult, tree.render_of_ne_nil hne]
              exact .accepted hloud hcodes hparse

/-- A line prints nothing else. -/
theorem Prints.eq_block (h : Prints number codes output rejected) :
    output = (⟨number, codes⟩ : Line).block.output ∧
      rejected = (⟨number, codes⟩ : Line).block.failed := by
  have hloud : ¬ Silent codes → (⟨number, codes⟩ : Line).isSilent = false := by
    intro hsilent
    rw [← Bool.not_eq_true, isSilent_iff]
    exact hsilent
  cases h with
  | silent hsilent => simp [Line.block, isSilent_iff.2 hsilent]
  | badCode hsilent hfront hrefused =>
      obtain ⟨error, hcode, rfl⟩ := (Token.refused_iff _ _).1 hrefused
      simp [Line.block, hloud hsilent, Token.ofCodes_of_error hfront hcode]
  | invalid hsilent hcodes hvalidate hposition hworded _ =>
      simp only [Line.block, hloud hsilent, hcodes, parseValidated_result, hvalidate, bind,
        Except.bind, Line.excerpt_eq number hposition hworded, Bool.false_eq_true, if_false,
        and_self]
  | accepted hsilent hcodes hparse =>
      have hne := ne_nil_of_not_silent hsilent
      simp [Line.block, hloud hsilent, hcodes, parseValidated_result, validate_of_parse hparse,
        hparse, bind, Except.bind, Tree.render_of_ne_nil _ hne]

/-- The number matters only to a line of tokens that are no expression. -/
theorem Prints.renumber (h : Prints number codes output rejected) (hvalid : ¬ Invalid codes) :
    Prints other codes output rejected := by
  cases h with
  | silent hsilent => exact .silent hsilent
  | badCode hsilent hfront hrefused => exact .badCode hsilent hfront hrefused
  | invalid _ hcodes hvalidate _ _ _ => exact absurd ⟨_, _, hcodes, hvalidate⟩ hvalid
  | accepted hsilent hcodes hparse => exact .accepted hsilent hcodes hparse

/-- Lines with the same codes print the same, if they have the same number or do not show it. -/
theorem Prints.unique (h : Prints number codes output rejected)
    (h' : Prints other codes output' rejected') (hnumber : number = other ∨ ¬ Invalid codes) :
    output = output' ∧ rejected = rejected' := by
  have hother : Prints other codes output rejected := by
    rcases hnumber with rfl | hvalid
    · exact h
    · exact h.renumber hvalid
  obtain ⟨houtput, hrejected⟩ := hother.eq_block
  obtain ⟨houtput', hrejected'⟩ := h'.eq_block
  exact ⟨houtput.trans houtput'.symm, hrejected.trans hrejected'.symm⟩

/-! ### What a session prints -/

variable {input : ByteArray} {texts : List String}

/-- The block of a line that was read, found by the number of the line. -/
theorem getElem?_blocks (hreadable : readable input = texts) {index : Nat} {text : String}
    (htext : texts[index]? = some text) :
    (blocks input)[index]? = some (Line.ofText (index + 1) text).block := by
  rw [blocks, numbered, hreadable, List.getElem?_map, List.getElem?_map, List.getElem?_zipIdx,
    htext, Nat.add_comm]
  rfl

theorem exitCode_eq_zero_iff (options : Options) : (run options input).exitCode = 0 ↔
    isReadable input = true ∧ ∀ block ∈ blocks input, block.failed = false := by
  have hfailures : failures input = 0 ↔ ∀ block ∈ blocks input, block.failed = false := by
    simp [failures, List.countP_eq_zero]
  rw [← hfailures]
  simp only [run]
  split
  · rename_i h
    simpa using h
  · rename_i h
    simpa using h

/-- What a line prints depends on its codes, and on its number only if the codes are tokens but no
    expression. Every input can be cut before the first line that is not UTF-8, every text has its
    codes, and the output of the session is what the lines in front of the cut print, one after the
    other. The session succeeds exactly if no line is behind the cut and none in front of it is
    rejected. -/
theorem run_of_cut (options : Options) (input : ByteArray) :
    (∀ number other codes output output' rejected rejected',
      Prints number codes output rejected → Prints other codes output' rejected' →
        number = other ∨ ¬ Invalid codes → output = output' ∧ rejected = rejected') ∧
    (∃ front rest texts, Cut input front rest texts) ∧
    (∀ text : String, ∃ codes, Text.Spaced text.toList codes) ∧
    ∀ front rest texts, Cut input front rest texts →
      ∃ blocks : List Block, blocks.length = texts.length ∧
        (∀ index text codes block, texts[index]? = some text → Text.Spaced text.toList codes →
          blocks[index]? = some block → Prints (index + 1) codes block.output block.failed) ∧
        (run options input).output = String.join (blocks.map Block.output) ∧
        ((run options input).exitCode = 0 ↔ rest = [] ∧ ∀ block ∈ blocks, block.failed = false) ∧
        (rest ≠ [] → (run options input).exitCode = 1) := by
  refine ⟨?_, exists_cut input, fun text => Text.exists_spaced text.toList, ?_⟩
  · intro number other codes output output' rejected rejected' h h' hnumber
    exact h.unique h' hnumber
  intro front rest texts hcut
  have hreadable := hcut.readable_eq
  have hall := hcut.isReadable_iff
  refine ⟨Session.blocks input, ?_, ?_, rfl, ?_, ?_⟩
  · simp [Session.blocks, numbered, hreadable]
  · intro index text codes block htext hcodes hblock
    rw [getElem?_blocks hreadable htext] at hblock
    cases hblock
    rw [← hcodes.words_eq]
    exact prints_block (Line.ofText (index + 1) text)
  · rw [exitCode_eq_zero_iff, hall]
  · intro hrest
    have hbroken : isReadable input = false := by
      rw [← Bool.not_eq_true, hall]
      exact hrest
    simp [run, hbroken]

/-- A blank line, a comment, tokens that are no expression, a code that is refused, an expression
    before a carriage return, and a byte that is no text. -/
def sampleInput : ByteArray := "\n # note\nv1 v2\np1 x1 t1\nv1 d2 v3\r\n".toUTF8.push 0xFF

/-- What is printed for the sample, which is all but the last line of it. -/
theorem run_of_unreadable_line :
    (run {} sampleInput).output =
      "3| v1 v2\n |    ^^--- Unexpected variable: v2 following variable: v1 at position 2. " ++
      "Expected: assignment operator, closing parenthesis, dyadic operator, semi-colon or " ++
      "suffix operator.\nerror: transition error: Unexpected variable: v2 following variable: " ++
      "v1 at position 2. Expected: assignment operator, closing parenthesis, dyadic operator, " ++
      "semi-colon or suffix operator.\nerror: unknown lexical kind 'x' in token: x1\n" ++
      "v1 d2 v3\n    d2\n v1    v3\n" ∧
    (run {} sampleInput).exitCode = 1 := by
  have hbytes : sampleInput.toList = [] ++ lineFeed :: (" # note".toUTF8.toList ++ lineFeed ::
      ("v1 v2".toUTF8.toList ++ lineFeed :: ("p1 x1 t1".toUTF8.toList ++ lineFeed ::
        ("v1 d2 v3\r".toUTF8.toList ++ lineFeed :: [0xFF])))) := by
    decide +kernel
  have hsplits : Splits sampleInput.toList ([[], " # note".toUTF8.toList, "v1 v2".toUTF8.toList,
      "p1 x1 t1".toUTF8.toList, "v1 d2 v3\r".toUTF8.toList] ++ [[0xFF]]) := by
    rw [hbytes]
    exact .line (by decide +kernel) (.line (by decide +kernel) (.line (by decide +kernel)
      (.line (by decide +kernel) (.line (by decide +kernel) (.last (by decide) (by decide))))))
  have hcut : Cut sampleInput _ [[0xFF]] ["", " # note", "v1 v2", "p1 x1 t1", "v1 d2 v3\r"] :=
    ⟨hsplits, by decide +kernel, by decide +kernel⟩
  obtain ⟨hunique, -, -, hruns⟩ := run_of_cut {} sampleInput
  obtain ⟨blocks, hlength, hprints, houtput, -, hexit⟩ := hruns _ _ _ hcut
  have hblocks {number : Nat} {codes : List String} {block : Block} {output : String}
      {rejected : Bool} (hblock : Prints number codes block.output block.failed)
      (hexpected : Prints number codes output rejected) : block.output = output :=
    (hunique _ _ _ _ _ _ _ hblock hexpected (.inl rfl)).1
  have hspaced {text : String} {codes : List String} (h : Text.words text = codes) :
      Text.Spaced text.toList codes :=
    h ▸ Text.spaced_words text
  match blocks, hlength with
  | [blank, comment, rejected, refused, accepted], _ =>
      have hblank := hblocks (hprints 0 "" [] blank rfl (hspaced (by decide +kernel)) rfl)
        (.silent .blank)
      have hcomment := hblocks
        (hprints 1 " # note" ["#", "note"] comment rfl (hspaced (by decide +kernel)) rfl)
        (.silent (.comment rfl))
      have hrejected := hblocks
        (hprints 2 "v1 v2" ["v1", "v2"] rejected rfl (hspaced (by decide +kernel)) rfl)
        (@Prints.invalid 3 ["v1"] [] "v2" _ _ [⟨.var, "v1", ""⟩, ⟨.var, "v2", ""⟩]
          ⟨2, .unexpectedElement ⟨.var, "v2"⟩ ⟨.var, "v1"⟩ 2 (Grammar.next .var)⟩
          (by decide +kernel) (by decide +kernel) (by decide +kernel) rfl .unexpectedElement
          (by decide))
      have hrefused := hblocks
        (hprints 3 "p1 x1 t1" ["p1", "x1", "t1"] refused rfl (hspaced (by decide +kernel)) rfl)
        (@Prints.badCode 4 ["p1"] ["t1"] "x1" _ (by decide +kernel)
          (by simpa using ⟨⟨.prefixOp, "p1", ""⟩, rfl⟩) (.unknownKind rfl (by decide)))
      have haccepted := hblocks
        (hprints 4 "v1 d2 v3\r" ["v1", "d2", "v3"] accepted rfl (hspaced (by decide +kernel)) rfl)
        (@Prints.accepted 5 ["v1", "d2", "v3"]
          [⟨.var, "v1", ""⟩, ⟨.dyad, "d2", ""⟩, ⟨.var, "v3", ""⟩]
          ⟨⟨#[⟨.var, "v1", [], some 2⟩, ⟨.var, "v3", [], some 2⟩, ⟨.dyad, "d2", [0, 1], none⟩]⟩,
            2⟩
          (by decide +kernel) (by decide +kernel) (by decide +kernel))
      refine ⟨houtput.trans ?_, hexit (by simp)⟩
      simp only [List.map_cons, List.map_nil, hblank, hcomment, hrejected, hrefused, haccepted]
      decide +kernel

end Session

end OperatorTerms
