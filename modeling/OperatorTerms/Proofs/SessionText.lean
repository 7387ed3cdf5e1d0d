/-
Module: OperatorTerms.Proofs.SessionText
Layer: Proofs
Purpose: How the input of a session is cut. Its bytes are cut at line feeds, the last of which may
  be missing, and a line at runs of blanks; each of the two cuts is said here as a relation of its
  own. An input can be cut in one way only, and that is how the session cuts it. The lines that it
  reads are those before the first that is not UTF-8.
Imports: OperatorTerms.Session.Run
Main exports: Text.Spaced, Text.Spaced.append, Text.spaced_words, Text.Spaced.words_eq,
  Session.Splits, Session.splits_rawLines, Session.Splits.rawLines_eq, Session.Cut,
  Session.exists_cut, Session.Cut.readable_eq
-/
import OperatorTerms.Session.Run

namespace OperatorTerms

namespace Text

/-! ### Words -/

/-- A text of words and blanks: every word is as long as it can be, and the blanks around it do not
    matter. -/
inductive Spaced : List Char → List String → Prop where
  | nil : Spaced [] []
  | blank {c : Char} {text : List Char} {words : List String} : isBlank c = true →
      Spaced text words → Spaced (c :: text) words
  | word {word text : List Char} {words : List String} : word ≠ [] →
      (∀ c ∈ word, isBlank c = false) → (∀ c ∈ text.head?, isBlank c = true) →
        Spaced text words → Spaced (word ++ text) (String.ofList word :: words)

/-- A character in front of a text makes the first word longer, starts a word, or is a blank. -/
theorem Spaced.exists_cons {c : Char} {text : List Char} {words : List String}
    (h : Spaced text words) : ∃ words', Spaced (c :: text) words' := by
  cases hc : isBlank c with
  | true => exact ⟨words, .blank hc h⟩
  | false =>
      have halone : ∀ other ∈ [c], isBlank other = false := by simpa using hc
      have hne : [c] ≠ [] := List.cons_ne_nil c []
      cases h with
      | nil => exact ⟨_, .word hne halone (by simp) .nil⟩
      | blank hblank hrest =>
          exact ⟨_, .word hne halone (by simpa using hblank) (.blank hblank hrest)⟩
      | word _ hword hnext hrest =>
          exact ⟨_, .word (List.cons_ne_nil c _) (List.forall_mem_cons.2 ⟨hc, hword⟩) hnext hrest⟩

theorem exists_spaced (text : List Char) : ∃ words, Spaced text words := by
  induction text with
  | nil => exact ⟨[], .nil⟩
  | cons c text ih =>
      obtain ⟨words, hwords⟩ := ih
      exact hwords.exists_cons

/-- A text of blanks has no words. -/
theorem spaced_of_blank {text : List Char} (h : ∀ c ∈ text, isBlank c = true) : Spaced text [] := by
  induction text with
  | nil => exact .nil
  | cons c text ih =>
      obtain ⟨hc, htext⟩ := List.forall_mem_cons.1 h
      exact .blank hc (ih htext)

/-- Texts can be put together where a blank stands between them. -/
theorem Spaced.append {front back : List Char} {words words' : List String}
    (h : Spaced front words) (h' : Spaced back words')
    (hblank : ∀ c ∈ back.head?, isBlank c = true) :
    Spaced (front ++ back) (words ++ words') := by
  induction h with
  | nil => exact h'
  | blank hc _ ih => exact .blank hc ih
  | @word word text words hne hword hnext _ ih =>
      have hnext' : ∀ c ∈ (text ++ back).head?, isBlank c = true := by
        cases text with
        | nil => exact hblank
        | cons c text => exact hnext
      rw [List.append_assoc]
      exact .word hne hword hnext' ih

theorem splitOnP_of_isBlank {c : Char} (h : isBlank c = true) (text : List Char) :
    (c :: text).splitOnP isBlank = [] :: text.splitOnP isBlank := by
  have hnone : ∀ other ∈ ([] : List Char), isBlank other = false := by simp
  exact List.splitOnP_append_cons_of_forall_mem hnone c h text

theorem Spaced.map_splitOnP {text : List Char} {words : List String} (h : Spaced text words) :
    ((text.splitOnP isBlank).filter fun word => !word.isEmpty).map String.ofList = words := by
  induction h with
  | nil => rfl
  | blank hc _ ih =>
      rw [splitOnP_of_isBlank hc]
      exact ih
  | @word word text words hne hword hnext _ ih =>
      cases text with
      | nil =>
          rw [List.append_nil, List.splitOnP_eq_singleton hword, ← ih]
          simp [hne]
      | cons c text =>
          have hc : isBlank c = true := hnext c rfl
          rw [splitOnP_of_isBlank hc] at ih
          rw [List.splitOnP_append_cons_of_forall_mem hword _ hc, ← ih]
          simp [hne]

/-- The words of a text are those that it is made of. -/
theorem Spaced.words_eq {text : String} {codes : List String} (h : Spaced text.toList codes) :
    words text = codes :=
  h.map_splitOnP

theorem spaced_words (text : String) : Spaced text.toList (words text) := by
  obtain ⟨codes, hcodes⟩ := exists_spaced text.toList
  rw [hcodes.words_eq]
  exact hcodes

end Text

namespace Session

/-! ### Lines -/

/-- Bytes cut into lines. Each line but the last is ended by a line feed, which belongs to no line;
    the last line may be ended, and if it is not, it is not empty. -/
inductive Splits : List UInt8 → List (List UInt8) → Prop where
  | nil : Splits [] []
  | last {line : List UInt8} : line ≠ [] → lineFeed ∉ line → Splits line [line]
  | line {line rest : List UInt8} {lines : List (List UInt8)} : lineFeed ∉ line →
      Splits rest lines → Splits (line ++ lineFeed :: rest) (line :: lines)

/-- A byte in front makes the first line longer, or is an empty line of its own. -/
theorem Splits.exists_cons {byte : UInt8} {bytes : List UInt8} {lines : List (List UInt8)}
    (h : Splits bytes lines) : ∃ lines', Splits (byte :: bytes) lines' := by
  by_cases hbyte : byte = lineFeed
  · rw [hbyte]
    exact ⟨_, .line List.not_mem_nil h⟩
  · have hfirst : ∀ line : List UInt8, lineFeed ∉ line → lineFeed ∉ byte :: line := by
      intro line hline hmem
      rcases List.mem_cons.1 hmem with heq | hmem
      · exact hbyte heq.symm
      · exact hline hmem
    cases h with
    | nil => exact ⟨_, .last (List.cons_ne_nil byte []) (hfirst [] List.not_mem_nil)⟩
    | last _ hline => exact ⟨_, .last (List.cons_ne_nil byte bytes) (hfirst bytes hline)⟩
    | line hline hrest => exact ⟨_, .line (hfirst _ hline) hrest⟩

theorem exists_splits (bytes : List UInt8) : ∃ lines, Splits bytes lines := by
  induction bytes with
  | nil => exact ⟨[], .nil⟩
  | cons byte bytes ih =>
      obtain ⟨lines, hlines⟩ := ih
      exact hlines.exists_cons

/-- An input can be cut into lines in one way only, which is how a session cuts it. -/
theorem Splits.rawLines_eq {input : ByteArray} {lines : List (List UInt8)}
    (h : Splits input.toList lines) : rawLines input = lines := by
  rw [rawLines]
  generalize input.toList = bytes at h ⊢
  induction h with
  | nil => rfl
  | last hne hline =>
      rw [List.splitOn_eq_singleton hline]
      simp [hne]
  | @line line rest lines hline _ ih =>
      -- A line in front changes neither the last piece nor whether it is dropped.
      have hpieces := List.splitOn_ne_nil lineFeed rest
      rw [List.splitOn_append_cons_self_of_not_mem hline, ← ih]
      cases hrest : rest.splitOn lineFeed with
      | nil => contradiction
      | cons piece pieces =>
          simp only [List.getLast?_cons_cons, List.dropLast_cons_cons]
          split
          · rfl
          · rfl

theorem splits_rawLines (input : ByteArray) : Splits input.toList (rawLines input) := by
  obtain ⟨lines, hlines⟩ := exists_splits input.toList
  rw [hlines.rawLines_eq]
  exact hlines

/-! ### Readable lines -/

/-- The text of a line, if its bytes are UTF-8. -/
def decode? (bytes : List UInt8) : Option String := String.fromUTF8? ⟨bytes.toArray⟩

/-- The lines of an input with a cut before the first that is not UTF-8: the lines in front of it,
    the texts that these are, and the lines behind it. -/
structure Cut (input : ByteArray) (front rest : List (List UInt8)) (texts : List String) :
    Prop where
  splits : Splits input.toList (front ++ rest)
  read : front.map decode? = texts.map some
  unread : ∀ bytes ∈ rest.head?, decode? bytes = none

/-- Lines are texts up to one that is not, or all of them are. -/
theorem exists_read (lines : List (List UInt8)) :
    ∃ (front rest : List (List UInt8)) (texts : List String), lines = front ++ rest ∧
      front.map decode? = texts.map some ∧ ∀ bytes ∈ rest.head?, decode? bytes = none := by
  induction lines with
  | nil => exact ⟨[], [], [], rfl, rfl, by simp⟩
  | cons line lines ih =>
      cases htext : decode? line with
      | none => exact ⟨[], line :: lines, [], rfl, rfl, by simpa using htext⟩
      | some text =>
          obtain ⟨front, rest, texts, rfl, hread, hunread⟩ := ih
          refine ⟨line :: front, rest, text :: texts, rfl, ?_, hunread⟩
          rw [List.map_cons, List.map_cons, htext, hread]

/-- Every input has a cut. -/
theorem exists_cut (input : ByteArray) : ∃ front rest texts, Cut input front rest texts := by
  obtain ⟨front, rest, texts, hlines, hread, hunread⟩ := exists_read (rawLines input)
  have hsplits := splits_rawLines input
  rw [hlines] at hsplits
  exact ⟨front, rest, texts, hsplits, hread, hunread⟩

namespace Cut

variable {input : ByteArray} {front rest : List (List UInt8)} {texts : List String}

theorem lines_eq (h : Cut input front rest texts) :
    lines input = texts.map some ++ rest.map decode? := by
  rw [lines, h.splits.rawLines_eq, List.map_append, ← h.read]
  rfl

/-- Lines are read up to the first that is not UTF-8. -/
theorem readable_eq (h : Cut input front rest texts) : readable input = texts := by
  have htexts : ∀ text ∈ texts.map some, text.isSome = true := by simp
  have hrest : (rest.map decode?).takeWhile Option.isSome = [] := by
    cases rest with
    | nil => rfl
    | cons bytes rest => simp [h.unread bytes rfl]
  rw [readable, h.lines_eq, List.takeWhile_append_of_pos htexts, hrest, List.append_nil]
  simp

theorem isReadable_iff (h : Cut input front rest texts) : isReadable input = true ↔ rest = [] := by
  rw [isReadable, h.lines_eq]
  cases rest with
  | nil => simp
  | cons bytes rest => simp [h.unread bytes rfl]

end Cut

end Session

end OperatorTerms
