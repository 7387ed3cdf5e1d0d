/-
Module: OperatorTerms.KindSet
Layer: Grammar
Purpose: Sets of lexical kinds. A set is known by its members alone, so two sets with the same
  members are equal, and everything else about a set (its size, its listing, its text) is read off
  the fixed listing of the kinds.
Imports: OperatorTerms.Kind
Main exports: KindSet, KindSet.insert, KindSet.ofList, KindSet.toList, KindSet.describe
-/
import OperatorTerms.Kind

namespace OperatorTerms

/-- A set of kinds, given by its membership test. -/
@[ext]
structure KindSet where
  /-- Whether a kind belongs to the set. -/
  contains : Kind → Bool

namespace KindSet

/-- Two sets are equal when they agree on every listed kind. -/
theorem eq_iff (a b : KindSet) : (∀ k ∈ Kind.all, a.contains k = b.contains k) ↔ a = b := by
  constructor
  · intro h
    ext k
    rw [h k k.mem_all]
  · rintro rfl
    exact fun _ _ => rfl

instance : DecidableEq KindSet := fun a b => decidable_of_iff _ (eq_iff a b)

/-- The set without members. -/
def empty : KindSet := ⟨fun _ => false⟩

instance : Inhabited KindSet := ⟨empty⟩

/-- The set with one more member. -/
def insert (set : KindSet) (kind : Kind) : KindSet :=
  ⟨fun k => k == kind || set.contains k⟩

/-- The set of the kinds in a list, in which order and repetition do not matter. -/
def ofList (kinds : List Kind) : KindSet := kinds.foldl insert empty

/-- The members, in the order of `Kind.all`. -/
def toList (set : KindSet) : List Kind := Kind.all.filter set.contains

/-- The number of members. -/
def size (set : KindSet) : Nat := set.toList.length

/-- Whether there is no member at all. -/
def isEmpty (set : KindSet) : Bool := set.toList.isEmpty

/-- The code letters of the members, in the order of `Kind.all`. -/
def codes (set : KindSet) : String := String.ofList (set.toList.map Kind.code)

instance : ToString KindSet := ⟨fun set => "KindSet(" ++ set.codes ++ ")"⟩

instance : Repr KindSet := ⟨fun set _ => toString set⟩

@[simp]
theorem contains_empty (k : Kind) : empty.contains k = false := rfl

@[simp]
theorem contains_insert (set : KindSet) (kind k : Kind) :
    (set.insert kind).contains k = (k == kind || set.contains k) := rfl

/-- Collecting a list adds its elements to what was there before. -/
theorem contains_foldl_insert (kinds : List Kind) (set : KindSet) (k : Kind) :
    (kinds.foldl insert set).contains k = (kinds.contains k || set.contains k) := by
  induction kinds generalizing set with
  | nil => simp
  | cons kind kinds ih =>
      rw [List.foldl_cons, ih, contains_insert, List.contains_cons]
      cases k == kind <;> cases kinds.contains k <;> rfl

@[simp]
theorem contains_ofList (kinds : List Kind) (k : Kind) :
    (ofList kinds).contains k = kinds.contains k := by
  rw [ofList, contains_foldl_insert, contains_empty, Bool.or_false]

@[simp]
theorem mem_toList {set : KindSet} {k : Kind} : k ∈ set.toList ↔ set.contains k = true := by
  simp [toList, Kind.mem_all]

/-!
### The text of a set

Diagnostics list the kinds that would have been accepted by name, in alphabetical order of the
names, with commas between them and `or` before the last.
-/

/-- Every kind, in alphabetical order of the names. -/
def namesInOrder : List Kind :=
  [.assign, .closing, .dyad, .opening, .prefixOp, .semicolon, .suffixOp, .term, .var]

/-- Alternatives as a phrase: commas between them, and `or` before the last. -/
def alternatives : List String → String
  | [] => ""
  | [only] => only
  | [one, other] => one ++ " or " ++ other
  | one :: others => one ++ ", " ++ alternatives others

/-- The members as a phrase, such as `opening parenthesis, prefix operator or variable`. -/
def describe (set : KindSet) : String :=
  alternatives ((namesInOrder.filter set.contains).map Kind.name)

end KindSet

end OperatorTerms
