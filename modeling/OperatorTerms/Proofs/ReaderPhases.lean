/-
Module: OperatorTerms.Proofs.ReaderPhases
Layer: Proofs
Purpose: Where a reader stands. As long as every token may follow the one before it, the kind of
  the token read last tells the phase of the level that is being read: whether an operand is
  wanted or has just been read, and what waits for it. In each phase only some kinds may come
  next, and each of these leads to the phase that belongs to it.
Imports: OperatorTerms.Proofs.Adjacency, OperatorTerms.Proofs.Reader
Main exports: Reading.Sound, Reading.Takes, Reader.Phase, Reader.Sound,
  Reader.Phase.operand_read, Reader.Phase.operand_wanted, Reader.Phase.statement_end,
  Reader.Phase.takes, Reader.Sound.take?
-/
import OperatorTerms.Proofs.Adjacency
import OperatorTerms.Proofs.Reader

namespace OperatorTerms

/-- The operators that wait on a level are of the kinds that their places call for. -/
structure Reading.Sound (reading : Reading) : Prop where
  prefixes : ∀ operator ∈ reading.prefixes, operator.kind = .prefixOp
  chain : ∀ link ∈ reading.chain, link.2.kind.isInfix = true

/-- What reading a token that is no parenthesis does to a level, where the token may come next. -/
inductive Reading.Takes (token : Token) : Reading → Reading → Prop where
  | infixOp {chain : List (Term × Token)} {operand : Term} :
      token.kind = .assign ∨ token.kind = .dyad →
        Takes token { chain, current := some operand } { chain := (operand, token) :: chain }
  | suffixOp {chain : List (Term × Token)} {operand : Term} :
      token.kind = .suffixOp →
        Takes token { chain, current := some operand }
          { chain, current := some (node token [operand]) }
  | prefixOp {chain : List (Term × Token)} {prefixes : List Token} :
      token.kind = .prefixOp →
        Takes token { chain, prefixes } { chain, prefixes := token :: prefixes }
  | var {chain : List (Term × Token)} {prefixes : List Token} :
      token.kind = .var →
        Takes token { chain, prefixes }
          { chain, current := some (applyPrefixes { chain, prefixes } (node token [])) }
  | semicolon {reading : Reading} :
      token.kind = .semicolon → reading.prefixes = [] →
        Takes token reading
          { chain := [(reading.closeChain (reading.current.getD .emptyStatement), token)] }

namespace Reader

/-- What a reader holds after a token of the given kind, or before the first token. -/
inductive Phase : Option Kind → Reader → Prop where
  | start : Phase none {}
  | opened {opened : Token} {outer : Reading} {around : List (Token × Reading)} :
      Phase (some .opening) ⟨{}, (opened, outer) :: around⟩
  | separated {operand : Term} {semicolon : Token} {around : List (Token × Reading)} :
      semicolon.kind = .semicolon →
        Phase (some .semicolon) ⟨{ chain := [(operand, semicolon)] }, around⟩
  | combined {kind : Kind} {operand : Term} {operator : Token} {chain : List (Term × Token)}
      {around : List (Token × Reading)} :
      kind = .assign ∨ kind = .dyad → operator.kind = kind →
        Phase (some kind) ⟨{ chain := (operand, operator) :: chain }, around⟩
  | prefixed {operator : Token} {prefixes : List Token} {chain : List (Term × Token)}
      {around : List (Token × Reading)} :
      Phase (some .prefixOp) ⟨{ chain, prefixes := operator :: prefixes }, around⟩
  | complete {kind : Kind} {operand : Term} {chain : List (Term × Token)}
      {around : List (Token × Reading)} :
      kind = .closing ∨ kind = .suffixOp ∨ kind = .var →
        Phase (some kind) ⟨{ chain, current := some operand }, around⟩

/-- The reader is in the phase that belongs to the kind read last, and on the levels around it an
    operand is wanted. -/
structure Sound (previous : Option Kind) (reader : Reader) : Prop where
  phase : Phase previous reader
  level : reader.reading.Sound
  around : ∀ entry ∈ reader.around,
    entry.1.kind = .opening ∧ entry.2.current = none ∧ entry.2.Sound

variable {previous : Option Kind} {reader : Reader} {kind : Kind}

/-- Before the first token nothing has been read. -/
theorem Sound.initial : Sound none {} := ⟨.start, ⟨by simp, by simp⟩, by simp⟩

namespace Phase

/-! ### Which phases allow a kind -/

/-- Assignment, dyadic and suffix operators come after an operand. -/
theorem operand_read (h : Phase previous reader) (hallowed : Grammar.allows previous kind = true)
    (hkind : kind = .assign ∨ kind = .dyad ∨ kind = .suffixOp) :
    ∃ chain operand, reader.reading = { chain, current := some operand } := by
  cases h with
  | complete _ => exact ⟨_, _, rfl⟩
  | start | opened | separated _ | prefixed =>
      rcases hkind with rfl | rfl | rfl <;> exact absurd hallowed (by decide)
  | combined hprevious _ =>
      rcases hprevious with rfl | rfl <;> rcases hkind with rfl | rfl | rfl <;>
        exact absurd hallowed (by decide)

/-- Opening parentheses, prefix operators and variables come where an operand is wanted. -/
theorem operand_wanted (h : Phase previous reader) (hallowed : Grammar.allows previous kind = true)
    (hkind : kind = .opening ∨ kind = .prefixOp ∨ kind = .var) :
    ∃ chain prefixes, reader.reading = { chain, prefixes } := by
  cases h with
  | start | opened | separated _ | combined _ _ | prefixed => exact ⟨_, _, rfl⟩
  | complete hprevious =>
      rcases hprevious with rfl | rfl | rfl <;> rcases hkind with rfl | rfl | rfl <;>
        exact absurd hallowed (by decide)

/-- Semi-colons and closing parentheses come after an operand, after a semi-colon, or where
    nothing has been read on the level. -/
theorem statement_end (h : Phase previous reader) (hallowed : Grammar.allows previous kind = true)
    (hkind : kind = .semicolon ∨ kind = .closing) :
    reader.reading = {} ∨
      (∃ operand semicolon, semicolon.kind = .semicolon ∧
        reader.reading = { chain := [(operand, semicolon)] }) ∨
      (∃ chain operand, reader.reading = { chain, current := some operand }) := by
  cases h with
  | start | opened => exact .inl rfl
  | separated hsemicolon => exact .inr (.inl ⟨_, _, hsemicolon, rfl⟩)
  | complete _ => exact .inr (.inr ⟨_, _, rfl⟩)
  | combined hprevious _ =>
      rcases hprevious with rfl | rfl <;> rcases hkind with rfl | rfl <;>
        exact absurd hallowed (by decide)
  | prefixed => rcases hkind with rfl | rfl <;> exact absurd hallowed (by decide)

/-- The kind before a closing parenthesis tells what has been read on the level. -/
theorem closing_cases (h : Phase previous reader)
    (hallowed : Grammar.allows previous .closing = true) :
    (previous = some .opening ∧ reader.reading = {}) ∨
      (previous = some .semicolon ∧ ∃ operand semicolon, semicolon.kind = .semicolon ∧
        reader.reading = { chain := [(operand, semicolon)] }) ∨
      (previous ≠ some .opening ∧ previous ≠ some .semicolon ∧
        ∃ chain operand, reader.reading = { chain, current := some operand }) := by
  cases h with
  | opened => exact .inl ⟨rfl, rfl⟩
  | separated hsemicolon => exact .inr (.inl ⟨rfl, _, _, hsemicolon, rfl⟩)
  | complete hkind =>
      refine .inr (.inr ⟨?_, ?_, _, _, rfl⟩)
      · rcases hkind with rfl | rfl | rfl <;> decide
      · rcases hkind with rfl | rfl | rfl <;> decide
  | start | prefixed => exact absurd hallowed (by decide)
  | combined hprevious _ => rcases hprevious with rfl | rfl <;> exact absurd hallowed (by decide)

/-- Where nothing has been read before a closing parenthesis, a group was just opened. -/
theorem around_ne_nil (h : Phase previous reader)
    (hallowed : Grammar.allows previous .closing = true) (hreading : reader.reading = {}) :
    reader.around ≠ [] := by
  cases h with
  | start => exact absurd hallowed (by decide)
  | opened => exact List.cons_ne_nil _ _
  | separated _ | combined _ _ | prefixed | complete _ => simp at hreading

theorem kind_of_current (h : Phase previous reader)
    (hcurrent : reader.reading.current.isSome = true) :
    ∃ kind, previous = some kind ∧ (kind = .closing ∨ kind = .suffixOp ∨ kind = .var) := by
  cases h with
  | complete hkind => exact ⟨_, rfl, hkind⟩
  | start | opened | separated _ | combined _ _ | prefixed => contradiction

theorem ne_term (h : Phase (some kind) reader) : kind ≠ .term := by
  rintro rfl
  cases h with
  | combined hkind _ => simp at hkind
  | complete hkind => simp at hkind

end Phase

/-! ### Every token leads to its phase -/

/-- A token that is no parenthesis, and that may come next, is read in one of five ways. -/
theorem Phase.takes {token : Token} (h : Phase previous reader)
    (hallowed : Grammar.allows previous token.kind = true)
    (hplain : token.kind.isBracket = false) :
    Reading.Takes token reader.reading (reader.reading.take token) := by
  rcases reader with ⟨reading, around⟩
  match hkind : token.kind with
  | .assign | .dyad =>
      obtain ⟨chain, operand, rfl⟩ := h.operand_read hallowed (by simp [hkind])
      rw [Reading.take, hkind]
      exact .infixOp (by simp [hkind])
  | .suffixOp =>
      obtain ⟨chain, operand, rfl⟩ := h.operand_read hallowed (by simp [hkind])
      rw [Reading.take, hkind]
      exact .suffixOp hkind
  | .prefixOp =>
      obtain ⟨chain, prefixes, rfl⟩ := h.operand_wanted hallowed (by simp [hkind])
      rw [Reading.take, hkind]
      exact .prefixOp hkind
  | .var =>
      obtain ⟨chain, prefixes, rfl⟩ := h.operand_wanted hallowed (by simp [hkind])
      rw [Reading.take, hkind]
      exact .var hkind
  | .semicolon =>
      have hprefixes : reading.prefixes = [] := by
        rcases h.statement_end hallowed (by simp [hkind]) with
          rfl | ⟨_, _, _, rfl⟩ | ⟨_, _, rfl⟩ <;> rfl
      have htake : reading.take token =
          { chain := [(reading.closeChain (reading.current.getD .emptyStatement), token)] } := by
        rw [Reading.take, hkind, ← hprefixes]
      rw [htake]
      exact .semicolon hkind hprefixes
  | .term =>
      rw [hkind, Grammar.allows_term] at hallowed
      contradiction
  | .opening | .closing =>
      rw [hkind] at hplain
      contradiction

theorem Sound.take {token : Token} (h : Sound previous reader)
    (hallowed : Grammar.allows previous token.kind = true)
    (hplain : token.kind.isBracket = false) :
    Phase (some token.kind) { reader with reading := reader.reading.take token } ∧
      (reader.reading.take token).Sound := by
  rcases reader with ⟨reading, around⟩
  have htakes := h.phase.takes hallowed hplain
  have hlevel := h.level
  generalize reading.take token = taken at htakes ⊢
  cases htakes with
  | infixOp hkind =>
      refine ⟨.combined hkind rfl, ⟨by simp, ?_⟩⟩
      intro link hlink
      rcases List.mem_cons.1 hlink with rfl | hlink
      · rcases hkind with hkind | hkind <;> rw [hkind] <;> rfl
      · exact hlevel.chain link hlink
  | suffixOp hkind => exact ⟨.complete (by simp [hkind]), ⟨by simp, hlevel.chain⟩⟩
  | prefixOp hkind =>
      rw [hkind]
      refine ⟨.prefixed, ⟨?_, hlevel.chain⟩⟩
      intro operator hoperator
      rcases List.mem_cons.1 hoperator with rfl | hoperator
      · exact hkind
      · exact hlevel.prefixes operator hoperator
  | var hkind => exact ⟨.complete (by simp [hkind]), ⟨by simp, hlevel.chain⟩⟩
  | semicolon hkind _ =>
      rw [hkind]
      refine ⟨.separated hkind, ⟨by simp, ?_⟩⟩
      intro link hlink
      rw [List.mem_singleton.1 hlink, hkind]
      rfl

/-- Whatever token is read next, if it may come next, the reader is in the phase that belongs to
    it. -/
theorem Sound.take? {token : Token} {next : Reader} (h : Sound previous reader)
    (hallowed : Grammar.allows previous token.kind = true)
    (htake : reader.take? token = some next) : Sound (some token.kind) next := by
  rcases reader with ⟨reading, around⟩
  rcases take?_cases htake with
    ⟨hkind, rfl⟩ | ⟨opened, outer, around, rfl, hpairs, rfl⟩ | ⟨hkind, rfl⟩
  · obtain ⟨chain, prefixes, rfl⟩ := h.phase.operand_wanted hallowed (by simp [hkind])
    rw [hkind]
    refine ⟨.opened, ⟨by simp, by simp⟩, ?_⟩
    intro entry hentry
    rcases List.mem_cons.1 hentry with rfl | hentry
    · exact ⟨hkind, rfl, h.level⟩
    · exact h.around entry hentry
  · rw [(Token.kind_of_pairsWith hpairs).2]
    have hlevel : (outer.takeGroup (reading.value?.getD .emptyGroup)).Sound :=
      ⟨by simp [Reading.takeGroup], by simp [Reading.takeGroup]⟩
    refine ⟨.complete (by simp), hlevel, ?_⟩
    exact fun other hother => h.around other (List.mem_cons_of_mem _ hother)
  · obtain ⟨hphase, hlevel⟩ := h.take hallowed hkind
    exact ⟨hphase, hlevel, h.around⟩

end Reader

end OperatorTerms
