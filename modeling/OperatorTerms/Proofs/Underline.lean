/-
Module: OperatorTerms.Proofs.Underline
Layer: Proofs
Purpose: What stands below what. The quoted line and the underline are cut in three: the code that
  the error is about, or the carets, and what is before and behind. The codes in front and the blanks
  between them take as many bytes as the padding of the underline, so both pieces begin and end at
  the same byte, whatever the number of the line, however many codes stand in front, and whether or
  not a character takes more than one byte.
Imports: OperatorTerms.Proofs.LineAccess, OperatorTerms.Proofs.SessionText
Main exports: Text.Stretch, Line.quotedCode, Line.carets, Line.text_quotedCode,
  Line.carets_below, Line.newline_not_mem_quoted, underline_of_rejected
-/
import OperatorTerms.Proofs.LineAccess
import OperatorTerms.Proofs.SessionText

namespace OperatorTerms

namespace Text

/-- A piece of a text, with the text in front of it and the text behind it. -/
structure Stretch where
  front : String
  piece : String
  back : String
deriving DecidableEq, Repr

namespace Stretch

/-- The text that a piece is part of. -/
def text (stretch : Stretch) : String := stretch.front ++ stretch.piece ++ stretch.back

/-- The byte of the text at which the piece begins. -/
def start (stretch : Stretch) : Nat := stretch.front.utf8ByteSize

/-- The byte of the text before which the piece ends. -/
def stop (stretch : Stretch) : Nat := stretch.start + stretch.piece.utf8ByteSize

end Stretch

/-! ### Words with single spaces between them -/

theorem intercalate_cons (word : String) (words : List String) :
    " ".intercalate (word :: words) = word ++ String.join (words.map (" " ++ ·)) := by
  induction words generalizing word with
  | nil => simp
  | cons next words ih =>
      rw [String.intercalate_cons_cons, ih, List.map_cons, String.join_cons, String.append_assoc,
        String.append_assoc]

/-- A word stands behind the words in front of it, each of which has a space behind it. -/
theorem intercalate_append_cons (front back : List String) (word : String) :
    " ".intercalate (front ++ word :: back) =
      String.join (front.map (· ++ " ")) ++ word ++ String.join (back.map (" " ++ ·)) := by
  induction front with
  | nil =>
      rw [List.nil_append, intercalate_cons, List.map_nil, String.join_nil, String.empty_append]
  | cons first front ih =>
      have hne : front ++ word :: back ≠ [] := by simp
      rw [List.cons_append, String.intercalate_cons_of_ne_nil hne, ih, List.map_cons,
        String.join_cons]
      simp only [String.append_assoc]

/-- Each word takes its own bytes and that of the space behind it. -/
theorem foldl_utf8ByteSize (words : List String) (column : Nat) :
    words.foldl (fun column word => column + (word.utf8ByteSize + 1)) column =
      column + (String.join (words.map (· ++ " "))).utf8ByteSize := by
  induction words generalizing column with
  | nil => rfl
  | cons word words ih =>
      have hspace : (word ++ " ").utf8ByteSize = word.utf8ByteSize + 1 := String.utf8ByteSize_append
      rw [List.foldl_cons, ih, List.map_cons, String.join_cons, String.utf8ByteSize_append, hspace,
        Nat.add_assoc]

theorem newline_not_mem_intercalate {words : List String}
    (h : ∀ word ∈ words, '\n' ∉ word.toList) : '\n' ∉ (" ".intercalate words).toList := by
  induction words with
  | nil => simp
  | cons word words ih =>
      obtain ⟨hword, hwords⟩ := List.forall_mem_cons.1 h
      rw [intercalate_cons]
      simp only [String.toList_append, String.toList_join, List.mem_append, List.mem_flatMap,
        List.mem_map, not_or]
      refine ⟨hword, ?_⟩
      rintro ⟨_, ⟨other, hother, rfl⟩, hnewline⟩
      rw [String.toList_append, List.mem_append] at hnewline
      rcases hnewline with hspace | hnewline
      · exact absurd hspace (by decide)
      · exact hwords other hother hnewline

/-- A line feed is a blank, so there is none in a word. -/
theorem Spaced.newline_not_mem {text : List Char} {words : List String} (h : Spaced text words) :
    ∀ word ∈ words, '\n' ∉ word.toList := by
  induction h with
  | nil => simp
  | blank _ _ ih => exact ih
  | word _ hword _ _ ih =>
      refine List.forall_mem_cons.2 ⟨fun hmem => ?_, ih⟩
      rw [String.toList_ofList] at hmem
      have hnot := hword '\n' hmem
      contradiction

theorem newline_not_mem_toString (number : Nat) : '\n' ∉ (toString number).toList := by
  intro hmem
  rw [Nat.toString_eq_repr, Nat.toList_repr] at hmem
  have hdigit := Nat.isDigit_of_mem_toDigits (by decide) (by decide) hmem
  contradiction

end Text

/-- The empty text is not the code of a token. -/
theorem Token.empty_not_mem_of_ofCodes {codes : List String} {tokens : List Token}
    (h : ofCodes codes = .ok tokens) : "" ∉ codes := by
  induction codes generalizing tokens with
  | nil => exact List.not_mem_nil
  | cons code codes ih =>
      rw [ofCodes_cons] at h
      obtain ⟨token, hcode, h⟩ := bind_eq_ok_iff.1 h
      obtain ⟨rest, hrest, -⟩ := bind_eq_ok_iff.1 h
      rw [List.mem_cons, not_or]
      refine ⟨?_, ih hrest⟩
      rintro rfl
      contradiction

namespace Line

variable {line : Line} {front back : List String} {code : String}

/-- A code of the quoted line, behind the number of the line and the codes in front of it. -/
def quotedCode (line : Line) (front : List String) (code : String) (back : List String) :
    Text.Stretch where
  front := toString line.number ++ "| " ++ String.join (front.map (· ++ " "))
  piece := code
  back := String.join (back.map (" " ++ ·))

/-- The carets of the underline, between the padding and the wording of the error. -/
def carets (line : Line) (error : SyntaxError) : Text.Stretch where
  front := Text.spaces line.gutter.utf8ByteSize ++ "| "
    ++ Text.spaces (line.column (line.index error.position))
  piece := Text.run '^' (line.codeWidth (line.index error.position))
  back := "--- " ++ error.message

theorem text_quotedCode (h : line.codes = front ++ code :: back) :
    (line.quotedCode front code back).text = line.quoted := by
  rw [quoted, h, Text.intercalate_append_cons]
  simp only [Text.Stretch.text, quotedCode, gutter, String.append_assoc]

theorem text_carets (line : Line) (error : SyntaxError) :
    (line.carets error).text = line.underline error := by
  simp only [Text.Stretch.text, carets, underline, String.append_assoc]

/-- The column of a code is the size of the codes in front of it, each with a space behind it. -/
theorem column_eq (h : line.codes = front ++ code :: back) :
    line.column front.length = (String.join (front.map (· ++ " "))).utf8ByteSize := by
  rw [column, h, List.take_left, Text.foldl_utf8ByteSize, Nat.zero_add]

theorem codeWidth_eq (h : line.codes = front ++ code :: back) :
    line.codeWidth front.length = code.utf8ByteSize := by
  rw [codeWidth, h, List.getElem?_append_right (Nat.le_refl _), Nat.sub_self]
  rfl

/-- A quoted line is one line, if its codes are words of a text. -/
theorem newline_not_mem_quoted {text : String} (h : line.codes = Text.words text) :
    '\n' ∉ line.quoted.toList := by
  have hcodes := Text.newline_not_mem_intercalate (Text.spaced_words text).newline_not_mem
  rw [quoted, gutter, h]
  simp only [String.toList_append, List.mem_append, not_or]
  exact ⟨⟨Text.newline_not_mem_toString line.number, by decide⟩, hcodes⟩

/-- The position of a code stands for the place of the code. -/
theorem index_of_codes {position : Position} (h : line.codes = front ++ code :: back)
    (hposition : position = front.length + 1) : line.index position = front.length := by
  have hle : position ≤ line.codes.length := by
    rw [h, hposition, List.length_append, List.length_cons]
    exact Nat.add_le_add_left (Nat.le_add_left 1 _) _
  rw [index_eq hle, hposition, Nat.add_sub_cancel]

/-- Under the code that the error is about, the carets begin and end where the code does. -/
theorem carets_below {error : SyntaxError} (h : line.codes = front ++ code :: back)
    (hposition : error.position = front.length + 1) :
    (line.carets error).piece = Text.run '^' code.utf8ByteSize ∧
      (line.carets error).start = (line.quotedCode front code back).start ∧
      (line.carets error).stop = (line.quotedCode front code back).stop := by
  have hindex := index_of_codes h hposition
  have hpiece : (line.carets error).piece = Text.run '^' code.utf8ByteSize := by
    rw [carets, hindex, codeWidth_eq h]
  have hstart : (line.carets error).start = (line.quotedCode front code back).start := by
    simp only [Text.Stretch.start, carets, quotedCode, hindex, column_eq h,
      String.utf8ByteSize_append, Text.utf8ByteSize_spaces, gutter]
  have hwidth : (Text.run '^' code.utf8ByteSize).utf8ByteSize = code.utf8ByteSize :=
    (Text.utf8ByteSize_run '^' _).trans (Nat.mul_one _)
  refine ⟨hpiece, hstart, ?_⟩
  rw [Text.Stretch.stop, Text.Stretch.stop, hstart, hpiece, hwidth, quotedCode]

/-- There is nothing but the padding and the bar in front of the carets. -/
theorem padding_of_mem_front {error : SyntaxError} :
    ∀ c ∈ (line.carets error).front.toList, c = ' ' ∨ c = '|' := by
  intro c hc
  simp only [carets, Text.spaces, Text.run, String.toList_append, String.toList_ofList,
    List.mem_append] at hc
  rcases hc with (hc | hc) | hc
  · exact .inl (List.eq_of_mem_replicate hc)
  · have hbar : c ∈ ['|', ' '] := hc
    simpa [or_comm] using hbar
  · exact .inl (List.eq_of_mem_replicate hc)

end Line

/-- What is printed for a rejected line begins with the quoted line and the underline. The position
    of the error is the place of a code, counted from one; this code is at certain bytes of the
    quoted line, behind the number and the codes in front of it, and the first carets of the
    underline are at the very same bytes, of which there is at least one. The quoted line is one
    line if its codes are the words of a text, and then the underline is the second one. -/
theorem underline_of_rejected {line : Line} {tokens : List Token} {error : SyntaxError}
    (hloud : line.isSilent = false) (hcodes : Token.ofCodes line.codes = .ok tokens)
    (hrejected : (parseValidated tokens).result = .error error) :
    line.block.output = line.quoted ++ "\n" ++ line.underline error ++ "\n"
      ++ "error: " ++ error.describe ++ "\n" ∧
    (∀ text, line.codes = Text.words text → '\n' ∉ line.quoted.toList) ∧
    ∃ front code back, line.codes = front ++ code :: back ∧
      error.position = front.length + 1 ∧
      (line.quotedCode front code back).text = line.quoted ∧
      (line.carets error).text = line.underline error ∧
      (line.carets error).piece = Text.run '^' code.utf8ByteSize ∧
      (∀ c ∈ (line.carets error).front.toList, c = ' ' ∨ c = '|') ∧
      (line.carets error).back = "--- " ++ error.message ∧
      (line.carets error).start = (line.quotedCode front code back).start ∧
      (line.carets error).stop = (line.quotedCode front code back).stop ∧
      (line.carets error).start < (line.carets error).stop := by
  obtain ⟨front, code, back, hsplit, hposition⟩ :=
    Line.exists_code_of_rejected hloud hcodes hrejected
  have hnonempty : code ≠ "" := by
    rintro rfl
    exact Token.empty_not_mem_of_ofCodes hcodes (by simp [hsplit])
  obtain ⟨hpiece, hstart, hstop⟩ := Line.carets_below hsplit hposition
  refine ⟨?_, fun _ => Line.newline_not_mem_quoted, _, _, _, hsplit, hposition,
    Line.text_quotedCode hsplit, line.text_carets error, hpiece, Line.padding_of_mem_front, rfl,
    hstart, hstop, ?_⟩
  · simp only [Line.block, hloud, hcodes, hrejected]
    rfl
  · rw [hstart, hstop, Text.Stretch.stop]
    have hsize := mt String.utf8ByteSize_eq_zero_iff.1 hnonempty
    exact Nat.lt_add_of_pos_right (Nat.pos_of_ne_zero hsize)

/-- Two codes with a character of two bytes in each, behind a number of two digits. -/
theorem underline_below_wide_characters :
    (Line.block ⟨12, ["pé", "bß"]⟩).output =
      "12| pé bß\n  |     ^^^--- No closing parenthesis matching bß at position 2.\n" ++
      "error: structural error: No closing parenthesis matching bß at position 2.\n" ∧
    (Line.quotedCode ⟨12, ["pé", "bß"]⟩ ["pé"] "bß" []).text = "12| pé bß" ∧
    (Line.carets ⟨12, ["pé", "bß"]⟩ ⟨2, .unclosed "bß" 2⟩).text =
      "  |     ^^^--- No closing parenthesis matching bß at position 2." ∧
    (Line.carets ⟨12, ["pé", "bß"]⟩ ⟨2, .unclosed "bß" 2⟩).start = 8 ∧
    (Line.carets ⟨12, ["pé", "bß"]⟩ ⟨2, .unclosed "bß" 2⟩).stop = 11 := by
  have hcodes : Token.ofCodes ["pé", "bß"] =
      .ok [⟨.prefixOp, "pé", ""⟩, ⟨.opening, "bß", "ß"⟩] := by
    decide +kernel
  have hrejected : (parseValidated [⟨.prefixOp, "pé", ""⟩, ⟨.opening, "bß", "ß"⟩]).result =
      .error ⟨2, .unclosed "bß" 2⟩ := by
    decide +kernel
  obtain ⟨houtput, -, front, code, back, hsplit, hposition, htext, hbelow, -, -, -, hstart, hstop,
    -⟩ := @underline_of_rejected ⟨12, ["pé", "bß"]⟩ _ _ rfl hcodes hrejected
  have hlength : ["pé"].length = front.length := Nat.succ.inj hposition
  obtain ⟨rfl, hrest⟩ := @List.append_inj _ ["pé"] front ["bß"] (code :: back) hsplit hlength
  obtain ⟨rfl, rfl⟩ := List.cons.inj hrest
  refine ⟨houtput.trans ?_, htext.trans ?_, hbelow.trans ?_, hstart.trans ?_, hstop.trans ?_⟩
  all_goals decide +kernel

end OperatorTerms
