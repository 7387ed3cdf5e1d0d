/-
Module: OperatorTerms.Proofs.CodeReading
Layer: Proofs
Purpose: How codes are read. A code is refused if it is empty, if no kind has the letter that it
  begins with, or if this is the letter of terms; what is said of a refused code is written out
  here, and so are the letters. A sequence of codes is refused for the first of them that is, and
  otherwise every code becomes a token.
Imports: OperatorTerms.Proofs.Adjacency
Main exports: Token.Refused, Token.refused_iff, Token.ofCodes_error, Token.ofCodes_of_error,
  Token.length_of_ofCodes, Token.ofCodes_ne_nil
-/
import OperatorTerms.Proofs.Adjacency

namespace OperatorTerms

/-- A letter is that of a kind unless it is none of these nine. -/
theorem Kind.ofCode?_eq_none_iff (letter : Char) : ofCode? letter = none ↔
    letter ∉ ['a', 'b', 'B', 'd', 'p', 'q', 's', 't', 'v'] := by
  have hcodes : all.map code = ['a', 'b', 'B', 'd', 'p', 'q', 's', 't', 'v'] := rfl
  rw [ofCode?, List.find?_eq_none, ← hcodes]
  simp only [beq_iff_eq, List.mem_map, not_exists, not_and]

/-- Terms have the letter `t`. -/
theorem Kind.ofCode?_eq_term_iff (letter : Char) : ofCode? letter = some .term ↔ letter = 't' := by
  constructor
  · intro h
    rw [ofCode?] at h
    have hcode := List.find?_some h
    exact (beq_iff_eq.1 hcode).symm
  · rintro rfl
    rfl

namespace Token

/-! ### Refused codes -/

/-- A code that is no token, and what is said of it. -/
inductive Refused : String → String → Prop where
  | empty : Refused "" "empty token"
  | unknownKind {code : String} {letter : Char} : code.toList.head? = some letter →
      letter ∉ ['a', 'b', 'B', 'd', 'p', 'q', 's', 't', 'v'] →
        Refused code ("unknown lexical kind '" ++ letter.toString ++ "' in token: " ++ code)
  | syntheticTerm {code : String} : code.toList.head? = some 't' →
      Refused code ("terms cannot appear in raw input: " ++ code)

/-- The codes that are refused are those that cannot be read, and what is said of them is the
    wording of the error. -/
theorem refused_iff (code wording : String) : Refused code wording ↔
    ∃ error, ofCode code = .error error ∧ error.message = wording := by
  constructor
  · intro h
    cases h with
    | empty => exact ⟨.empty, rfl, rfl⟩
    | @unknownKind _ letter hletter hunknown =>
        obtain ⟨text, htext⟩ := List.head?_eq_some_iff.1 hletter
        rw [← Kind.ofCode?_eq_none_iff] at hunknown
        refine ⟨.unknownKind letter code, ?_, rfl⟩
        simp only [ofCode, htext, hunknown]
    | syntheticTerm hletter =>
        obtain ⟨text, htext⟩ := List.head?_eq_some_iff.1 hletter
        refine ⟨.syntheticTerm code, ?_, rfl⟩
        simp only [ofCode, htext, (Kind.ofCode?_eq_term_iff 't').2 rfl]
  · rintro ⟨error, herror, rfl⟩
    cases htext : code.toList with
    | nil =>
        obtain rfl := String.toList_eq_nil_iff.1 htext
        cases herror
        exact .empty
    | cons letter text =>
        have hletter : code.toList.head? = some letter := by rw [htext]; rfl
        simp only [ofCode, htext] at herror
        split at herror
        · rename_i hunknown
          cases herror
          exact .unknownKind hletter ((Kind.ofCode?_eq_none_iff letter).1 hunknown)
        · rename_i hterm
          cases herror
          rw [(Kind.ofCode?_eq_term_iff letter).1 hterm] at hletter
          exact .syntheticTerm hletter
        · contradiction

/-! ### Sequences of codes -/

theorem ofCodes_cons (code : String) (codes : List String) :
    ofCodes (code :: codes) =
      (do let token ← ofCode code
          let tokens ← ofCodes codes
          return token :: tokens) :=
  List.mapM_cons

/-- Reading codes fails at the first one that is not a token. -/
theorem ofCodes_error {codes : List String} {error : CodeError}
    (h : ofCodes codes = .error error) :
    ∃ front code back, codes = front ++ code :: back ∧
      (∀ good ∈ front, ∃ token, ofCode good = .ok token) ∧ ofCode code = .error error := by
  induction codes with
  | nil => contradiction
  | cons code codes ih =>
      rw [ofCodes_cons] at h
      cases hcode : ofCode code with
      | error other =>
          rw [hcode] at h
          cases h
          exact ⟨[], code, codes, rfl, by simp, hcode⟩
      | ok token =>
          rw [hcode] at h
          cases hrest : ofCodes codes with
          | ok tokens =>
              rw [hrest] at h
              contradiction
          | error other =>
              rw [hrest] at h
              cases h
              obtain ⟨front, bad, back, rfl, hfront, hbad⟩ := ih hrest
              refine ⟨code :: front, bad, back, rfl, ?_, hbad⟩
              exact List.forall_mem_cons.2 ⟨⟨token, hcode⟩, hfront⟩

/-- A code that is no token makes reading fail, if those before it are tokens. -/
theorem ofCodes_of_error {front back : List String} {code : String} {error : CodeError}
    (hfront : ∀ good ∈ front, ∃ token, ofCode good = .ok token)
    (hcode : ofCode code = .error error) : ofCodes (front ++ code :: back) = .error error := by
  induction front with
  | nil =>
      rw [List.nil_append, ofCodes_cons, hcode]
      rfl
  | cons good front ih =>
      obtain ⟨⟨token, hgood⟩, hfront⟩ := List.forall_mem_cons.1 hfront
      rw [List.cons_append, ofCodes_cons, hgood, ih hfront]
      rfl

/-- Every code that is read becomes a token. -/
theorem length_of_ofCodes {codes : List String} {tokens : List Token}
    (h : ofCodes codes = .ok tokens) : tokens.length = codes.length := by
  induction codes generalizing tokens with
  | nil =>
      cases h
      rfl
  | cons code codes ih =>
      rw [ofCodes_cons] at h
      obtain ⟨token, -, h⟩ := bind_eq_ok_iff.1 h
      obtain ⟨rest, hrest, h⟩ := bind_eq_ok_iff.1 h
      cases h
      exact congrArg (· + 1) (ih hrest)

theorem ofCodes_ne_nil {codes : List String} {tokens : List Token} (h : ofCodes codes = .ok tokens)
    (hne : codes ≠ []) : tokens ≠ [] := by
  rw [← List.length_pos_iff] at hne ⊢
  rwa [length_of_ofCodes h]

end Token

end OperatorTerms
