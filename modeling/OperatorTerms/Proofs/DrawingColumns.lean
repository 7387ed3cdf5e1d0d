/-
Module: OperatorTerms.Proofs.DrawingColumns
Layer: Proofs
Purpose: In which column each label of a drawing begins, whatever the labels are. A unary operator
  stands above the node before it if that has not closed its column, and any other node to the right
  of all labels so far. The rows are padded at some nodes only, and in between they have different
  lengths; but a label that goes on with a column belongs to a node less deep than the one before
  it, so it comes to a row that has not been written in since the padding. Where the labels have no
  blanks in them, the words of a line are the labels of its depth.
Imports: Mathlib.Data.List.Chain, OperatorTerms.Proofs.DrawingReadback,
  OperatorTerms.Proofs.SessionText
Main exports: Entry.FollowedBy, Layout.start, Layout.stop, Layout.reach, Layout.column,
  Layout.Ready, Layout.start_eq_column, Layout.labelsAt, Layout.LaidOut, layout_of_parse
-/
import Mathlib.Data.List.Chain
import OperatorTerms.Proofs.DrawingReadback
import OperatorTerms.Proofs.SessionText

namespace OperatorTerms

/-! ### Depths along the walk -/

/-- What may come next on a walk. A column that is kept open is left by an infix operator or gone on
    with by a unary one, which is less deep. -/
def Entry.FollowedBy (entry next : Entry) : Prop :=
  Layout.keepsColumn entry.kind = true →
    next.kind.isInfix = true ∨ next.kind.isUnary = true ∧ next.depth < entry.depth

theorem Term.Formed.isChain_entries {tokens : List Token} {term : Term} {depth : Nat}
    (h : term.Formed tokens) : (term.entries depth).IsChain Entry.FollowedBy := by
  induction h generalizing depth with
  | atom _ => exact List.isChain_singleton _
  | @unary kind label operand hmade hoperand ih =>
      have hunary : kind.isUnary = true := Kind.arity?_eq_one_iff.1 hmade.arity?_eq
      simp only [entries, entriesAll, List.isChain_append, List.isChain_singleton,
        List.head?_cons, Option.mem_some_iff]
      refine ⟨ih, trivial, ?_⟩
      rintro entry hlast _ rfl _
      have hdepth := hoperand.le_depth entry (List.mem_of_getLast? hlast)
      exact .inr ⟨hunary, hdepth⟩
  | @infixed kind label left right hmade _ _ ihleft ihright =>
      have hkind : kind.isInfix = true := Kind.arity?_eq_two_iff.1 hmade.arity?_eq
      simp only [entries, entriesAll, List.append_nil, List.isChain_append, List.isChain_cons,
        List.head?_cons, Option.mem_some_iff]
      refine ⟨ihleft, ⟨?_, ihright⟩, ?_⟩
      · intro next _ hkeeps
        rw [Layout.keepsColumn_of_isInfix hkind] at hkeeps
        contradiction
      · rintro entry _ _ rfl _
        exact .inl hkind

namespace Layout

/-! ### Columns -/

/-- The rows when the given nodes have been written. -/
def written (tree : Tree) (ids : List NodeId) : List String :=
  ids.foldl (place tree) (List.replicate (tree.maxDepth + 1) "")

/-- The rows that a node finds when it is written after the given ones. -/
def prepared (tree : Tree) (before : List NodeId) (id : NodeId) : List String :=
  if (tree.node id).kind.isInfix then align (written tree before) else written tree before

/-- Those rows with the label of the node in them. -/
def withLabel (tree : Tree) (before : List NodeId) (id : NodeId) : List String :=
  (prepared tree before id).modify (tree.depth id) fun text =>
    text ++ " " ++ (tree.node id).label

/-- The nodes that the walk comes across before the given one. -/
def visitedBefore (tree : Tree) (id : NodeId) : List NodeId :=
  tree.postOrder.takeWhile (· ≠ id)

/-- The column, counted in bytes, in which the label of a node begins: behind what its row holds
    when the label is written, and behind a space. -/
def start (tree : Tree) (id : NodeId) : Nat :=
  ((prepared tree (visitedBefore tree id) id)[tree.depth id]?.getD "").utf8ByteSize + 1

/-- The column behind the label of a node. -/
def stop (tree : Tree) (id : NodeId) : Nat := start tree id + (tree.node id).label.utf8ByteSize

/-- The column behind all labels of the given nodes. -/
def reach (tree : Tree) (ids : List NodeId) : Nat :=
  ids.foldr (fun id furthest => max (stop tree id) furthest) 0

/-- Where the label of a node goes that is written after the given ones: a unary operator above the
    last label, if that has not closed its column, and any other node to the right of them all. -/
def column (tree : Tree) (before : List NodeId) (id : NodeId) : Nat :=
  match before.getLast? with
  | none => reach tree before + 1
  | some last =>
      if (tree.node id).kind.isUnary && keepsColumn (tree.node last).kind then start tree last
      else reach tree before + 1

/-! ### Rows -/

section Rows

variable {rows rows' : List String} {row : Nat} {text : String}

/-- Writing in a row makes the rows as wide as this row, if they were not that wide before. -/
theorem width_modify {f : String → String} (htext : rows[row]? = some text)
    (hlonger : text.utf8ByteSize ≤ (f text).utf8ByteSize) :
    width (rows.modify row f) = max (width rows) (f text).utf8ByteSize := by
  induction rows generalizing row with
  | nil => simp at htext
  | cons first rows ih =>
      cases row with
      | zero =>
          obtain rfl : first = text := by simpa using htext
          simp only [List.modify_zero_cons, width, List.foldr_cons]
          omega
      | succ row =>
          have hrest := ih (by simpa using htext)
          simp only [width] at hrest
          simp only [List.modify_succ_cons, width, List.foldr_cons, hrest]
          omega

/-- Every row begins with what it held before. -/
def Grown (rows rows' : List String) : Prop :=
  ∀ (row : Nat) (text : String), rows[row]? = some text →
    ∃ back, rows'[row]? = some (text ++ back)

theorem Grown.refl (rows : List String) : Grown rows rows :=
  fun _ text htext => ⟨"", by rw [String.append_empty]; exact htext⟩

theorem Grown.trans {rows'' : List String} (h : Grown rows rows') (h' : Grown rows' rows'') :
    Grown rows rows'' := by
  intro row text htext
  obtain ⟨back, hback⟩ := h row text htext
  obtain ⟨more, hmore⟩ := h' row _ hback
  exact ⟨back ++ more, by rw [← String.append_assoc]; exact hmore⟩

theorem grown_align (rows : List String) : Grown rows (align rows) := by
  intro row text htext
  rw [getElem?_align, htext]
  exact ⟨_, rfl⟩

theorem grown_modify (rows : List String) (row : Nat) (label : String) :
    Grown rows (rows.modify row fun text => text ++ " " ++ label) := by
  intro other text htext
  rw [List.getElem?_modify, htext]
  split
  · exact ⟨" " ++ label, by simp [String.append_assoc]⟩
  · exact ⟨"", by simp⟩

end Rows

/-! ### Writing the next node -/

variable {tokens : List Token} {tree : Tree} {before after : List NodeId} {id last : NodeId}

theorem written_append_singleton (tree : Tree) (before : List NodeId) (id : NodeId) :
    written tree (before ++ [id]) =
      if keepsColumn (tree.node id).kind then withLabel tree before id
      else align (withLabel tree before id) := by
  rw [written, List.foldl_append]
  rfl

@[simp]
theorem length_prepared (tree : Tree) (before : List NodeId) (id : NodeId) :
    (prepared tree before id).length = (written tree before).length := by
  rw [prepared]
  split
  · exact length_align _
  · rfl

@[simp]
theorem length_written (tree : Tree) (ids : List NodeId) :
    (written tree ids).length = tree.maxDepth + 1 := by
  induction ids using List.reverseRecOn with
  | nil => exact List.length_replicate
  | append_singleton ids id ih =>
      rw [written_append_singleton]
      split <;> simp [withLabel, ih]

theorem grown_withLabel (tree : Tree) (before : List NodeId) (id : NodeId) :
    Grown (written tree before) (withLabel tree before id) := by
  have hprepared : Grown (written tree before) (prepared tree before id) := by
    rw [prepared]
    split
    · exact grown_align _
    · exact .refl _
  exact hprepared.trans (grown_modify _ _ _)

theorem grown_append_singleton (tree : Tree) (before : List NodeId) (id : NodeId) :
    Grown (withLabel tree before id) (written tree (before ++ [id])) := by
  rw [written_append_singleton]
  split
  · exact .refl _
  · exact grown_align _

theorem grown_written (tree : Tree) (before ids : List NodeId) :
    Grown (written tree before) (written tree (before ++ ids)) := by
  induction ids using List.reverseRecOn with
  | nil =>
      rw [List.append_nil]
      exact .refl _
  | append_singleton ids id ih =>
      rw [← List.append_assoc]
      exact ih.trans ((grown_withLabel _ _ _).trans (grown_append_singleton _ _ _))

theorem reach_append_singleton (tree : Tree) (before : List NodeId) (id : NodeId) :
    reach tree (before ++ [id]) = max (reach tree before) (stop tree id) := by
  induction before with
  | nil => simp [reach]
  | cons first before ih =>
      simp only [reach] at ih
      simp only [reach, List.cons_append, List.foldr_cons, ih]
      omega

theorem stop_le_reach {ids : List NodeId} (h : id ∈ ids) : stop tree id ≤ reach tree ids := by
  induction ids with
  | nil => contradiction
  | cons first ids ih =>
      rcases List.mem_cons.1 h with rfl | h
      · exact Nat.le_max_left _ _
      · exact Nat.le_trans (ih h) (Nat.le_max_right _ _)

theorem column_of_not_unary (before : List NodeId) (h : (tree.node id).kind.isUnary = false) :
    column tree before id = reach tree before + 1 := by
  rw [column]
  split
  · rfl
  · simp [h]

/-- The rows when the walk has come to a node: how far the labels go, and where the next one
    begins. -/
structure Ready (tree : Tree) (before : List NodeId) : Prop where
  width_eq : width (written tree before) = reach tree before
  /-- Where no column is left open, all rows are of the same width. -/
  closed : (∀ last ∈ before.getLast?, keepsColumn (tree.node last).kind = false) →
    ∀ (row : Nat) (text : String), (written tree before)[row]? = some text →
      text.utf8ByteSize = reach tree before
  /-- Where one is, the rows above the last label end just before the column. -/
  opened : ∀ last ∈ before.getLast?, keepsColumn (tree.node last).kind = true →
    ∀ row < tree.depth last, ∀ text, (written tree before)[row]? = some text →
      text.utf8ByteSize + 1 = start tree last

theorem ready_nil (tree : Tree) : Ready tree [] := by
  have htext {row : Nat} {text : String} (h : (written tree [])[row]? = some text) : text = "" :=
    List.eq_of_mem_replicate (List.mem_of_getElem? h)
  refine ⟨?_, ?_, by simp⟩
  · apply Nat.le_antisymm
    · refine width_le_iff.2 fun text hmem => ?_
      rw [List.eq_of_mem_replicate hmem]
      exact Nat.zero_le _
    · exact Nat.zero_le _
  · intro _ row text h
    rw [htext h]
    rfl

section Step

variable (hparse : parse tokens = .ok tree) (hwalk : tree.postOrder = before ++ id :: after)

include hparse hwalk

theorem visitedBefore_eq : visitedBefore tree id = before := by
  have hnodup := (whole_of_parse hparse).nodup_postOrder
  rw [hwalk] at hnodup
  have hnot : ∀ other ∈ before, decide (other ≠ id) = true := by
    intro other hmem
    exact decide_eq_true ((List.nodup_append.1 hnodup).2.2 other hmem id List.mem_cons_self)
  rw [visitedBefore, hwalk, List.takeWhile_append_of_pos hnot, List.takeWhile_cons_of_neg (by simp),
    List.append_nil]

theorem followedBy_of_walk (hlast : last ∈ before.getLast?) :
    (tree.forest.entry last).FollowedBy (tree.forest.entry id) := by
  have hchain : (tree.term.entries 1).IsChain Entry.FollowedBy :=
    (formed_of_parse hparse).isChain_entries
  rw [← (whole_of_parse hparse).entries_eq, Tree.entries, List.isChain_map, hwalk,
    List.isChain_append] at hchain
  exact hchain.2.2 last hlast id rfl

omit hparse in
theorem exists_text_prepared :
    ∃ text, (prepared tree before id)[tree.depth id]? = some text := by
  have hmem : id ∈ tree.postOrder := by
    rw [hwalk]
    exact List.mem_append_right _ List.mem_cons_self
  have hdepth : tree.depth id ≤ tree.maxDepth :=
    List.le_max?_getD_of_mem (List.mem_map_of_mem hmem)
  refine ⟨_, List.getElem?_eq_getElem ?_⟩
  rw [length_prepared, length_written]
  exact Nat.lt_succ_of_le hdepth

/-- The row of the next node and those before it end where its label is to begin. -/
theorem Ready.size_prepared (h : Ready tree before) {row : Nat} {text : String}
    (hrow : row ≤ tree.depth id) (htext : (prepared tree before id)[row]? = some text) :
    text.utf8ByteSize + 1 = column tree before id := by
  rw [prepared] at htext
  split at htext
  · rename_i hkind
    rw [utf8ByteSize_of_getElem?_align htext, h.width_eq,
      column_of_not_unary before (Kind.isUnary_of_isInfix hkind)]
  · rename_i hkind
    rw [column]
    cases hlast : before.getLast? with
    | none => simp [h.closed (by simp [hlast]) row text htext]
    | some last =>
        cases hkeeps : keepsColumn (tree.node last).kind with
        | false => simp [h.closed (by simp [hlast, hkeeps]) row text htext, hkeeps]
        | true =>
            obtain habs | ⟨hunary, hdepth⟩ := followedBy_of_walk hparse hwalk hlast hkeeps
            · exact absurd habs hkind
            · have hlt : row < tree.depth last := Nat.lt_of_le_of_lt hrow hdepth
              have hunary : (tree.node id).kind.isUnary = true := hunary
              simp [hunary, hkeeps, h.opened last hlast hkeeps row hlt text htext]

theorem Ready.start_eq_column (h : Ready tree before) :
    start tree id = column tree before id := by
  obtain ⟨text, htext⟩ := exists_text_prepared hwalk
  rw [start, visitedBefore_eq hparse hwalk, htext, Option.getD_some]
  exact h.size_prepared hparse hwalk (Nat.le_refl _) htext

/-- The rows with the next label in them are as wide as the labels go. -/
theorem Ready.width_withLabel (h : Ready tree before) :
    width (withLabel tree before id) = reach tree (before ++ [id]) := by
  have hstart := h.start_eq_column hparse hwalk
  obtain ⟨text, htext⟩ := exists_text_prepared hwalk
  have hsize := h.size_prepared hparse hwalk (Nat.le_refl _) htext
  have hprepared : width (prepared tree before id) = reach tree before := by
    rw [prepared]
    split
    · rw [width_align, h.width_eq]
    · exact h.width_eq
  have hlonger : (text ++ " " ++ (tree.node id).label).utf8ByteSize = stop tree id := by
    rw [stop, hstart, ← hsize, Text.utf8ByteSize_append_label]
  rw [withLabel, width_modify htext, hprepared, hlonger, reach_append_singleton]
  rw [hlonger, stop, hstart]
  omega

/-- The rows stay in order when the next node is written. -/
theorem Ready.write (h : Ready tree before) : Ready tree (before ++ [id]) := by
  have hwidth := h.width_withLabel hparse hwalk
  have hlast : (before ++ [id]).getLast? = some id := List.getLast?_concat
  have hwritten := written_append_singleton tree before id
  cases hkeeps : keepsColumn (tree.node id).kind with
  | false =>
      rw [hkeeps, if_neg Bool.false_ne_true] at hwritten
      refine ⟨?_, ?_, ?_⟩
      · rw [hwritten, width_align, hwidth]
      · intro _ row text hrow
        rw [hwritten] at hrow
        rw [utf8ByteSize_of_getElem?_align hrow, hwidth]
      · rw [hlast]
        rintro _ ⟨⟩ hopen
        rw [hkeeps] at hopen
        contradiction
  | true =>
      rw [hkeeps, if_pos rfl] at hwritten
      refine ⟨?_, ?_, ?_⟩
      · rw [hwritten, hwidth]
      · intro hclosed
        rw [hclosed id hlast] at hkeeps
        contradiction
      · rw [hlast]
        rintro _ ⟨⟩ _ row hlt text hrow
        -- The rows above the new label are those that it found.
        rw [hwritten, withLabel, List.getElem?_modify_ne _ _ (Nat.ne_of_gt hlt)] at hrow
        rw [h.start_eq_column hparse hwalk]
        exact h.size_prepared hparse hwalk (Nat.le_of_lt hlt) hrow

end Step

/-- Wherever the walk has come to, the rows are as they should be. -/
theorem ready_of_walk (hparse : parse tokens = .ok tree)
    (hwalk : tree.postOrder = before ++ after) : Ready tree before := by
  induction before using List.reverseRecOn generalizing after with
  | nil => exact ready_nil tree
  | append_singleton before id ih =>
      rw [List.append_assoc] at hwalk
      exact (ih hwalk).write hparse hwalk

/-! ### Where the labels stand -/

section Walk

variable (hparse : parse tokens = .ok tree)

include hparse

theorem start_eq_column (hwalk : tree.postOrder = before ++ id :: after) :
    start tree id = column tree before id :=
  (ready_of_walk hparse hwalk).start_eq_column hparse hwalk

/-- A label stands in the row for its depth, where it begins. -/
theorem exists_label_rows (hmem : id ∈ tree.postOrder) :
    ∃ front back, (rows tree)[tree.depth id]? = some (front ++ (tree.node id).label ++ back) ∧
      front.utf8ByteSize = start tree id := by
  obtain ⟨before, after, hwalk⟩ := List.append_of_mem hmem
  obtain ⟨text, htext⟩ := exists_text_prepared hwalk
  have hsize := (ready_of_walk hparse hwalk).size_prepared hparse hwalk (Nat.le_refl _) htext
  have hwrite : (withLabel tree before id)[tree.depth id]? =
      some (text ++ " " ++ (tree.node id).label) := by
    rw [withLabel, List.getElem?_modify_eq, htext]
    rfl
  have hrows : written tree (before ++ [id] ++ after) = rows tree := by
    rw [List.append_assoc, List.singleton_append, ← hwalk]
    rfl
  have hgrown : Grown (withLabel tree before id) (rows tree) :=
    hrows ▸ (grown_append_singleton tree before id).trans (grown_written tree _ after)
  obtain ⟨back, hback⟩ := hgrown _ _ hwrite
  refine ⟨text ++ " ", back, hback, ?_⟩
  rw [start_eq_column hparse hwalk, ← hsize, String.utf8ByteSize_append]
  rfl

theorem start_first (hfirst : id ∈ tree.postOrder.head?) : start tree id = 1 := by
  obtain ⟨after, hwalk⟩ := List.head?_eq_some_iff.1 hfirst
  have hwalk : tree.postOrder = [] ++ id :: after := hwalk
  exact start_eq_column hparse hwalk

theorem start_next {next : NodeId} (hwalk : tree.postOrder = before ++ id :: next :: after) :
    start tree next =
      if (tree.node next).kind.isUnary && keepsColumn (tree.node id).kind then start tree id
      else reach tree (before ++ [id]) + 1 := by
  rw [List.append_cons] at hwalk
  rw [start_eq_column hparse hwalk, column, List.getLast?_concat]

/-- The label of an infix operator begins behind all labels before it. -/
theorem stop_lt_start_of_infix (hwalk : tree.postOrder = before ++ id :: after)
    (hkind : (tree.node id).kind.isInfix = true) :
    ∀ other ∈ before, stop tree other < start tree id := by
  intro other hmem
  rw [start_eq_column hparse hwalk, column_of_not_unary before (Kind.isUnary_of_isInfix hkind)]
  exact Nat.lt_succ_of_le (stop_le_reach hmem)

/-- Where a label has closed its column, all labels after it begin behind it. -/
theorem stop_lt_start_of_closed (hwalk : tree.postOrder = before ++ id :: after)
    (hcloses : keepsColumn (tree.node id).kind = false) :
    ∀ next ∈ after, stop tree id < start tree next := by
  intro next hmem
  obtain ⟨between, rest, rfl⟩ := List.append_of_mem hmem
  -- A label that does not begin behind all others is above the one before it.
  induction between using List.reverseRecOn generalizing next rest with
  | nil =>
      have hstart := start_next hparse hwalk
      rw [hcloses, Bool.and_false, if_neg Bool.false_ne_true] at hstart
      rw [hstart]
      exact Nat.lt_succ_of_le (stop_le_reach (by simp))
  | append_singleton between last ih =>
      have hlast := ih last (next :: rest) (by simpa using hwalk) (by simp)
      have hnext : tree.postOrder = (before ++ id :: between) ++ last :: next :: rest := by
        simpa using hwalk
      rw [start_next hparse hnext]
      split
      · exact hlast
      · exact Nat.lt_succ_of_le (stop_le_reach (by simp))

/-- The operands of an infix operator stand to its left and to its right. -/
theorem exists_operands_of_infix (hmem : id ∈ tree.postOrder)
    (hkind : (tree.node id).kind.isInfix = true) :
    ∃ left right, (tree.node id).operands = [left, right] ∧
      (∀ other ∈ tree.forest.postOrder left, stop tree other < start tree id) ∧
      ∀ other ∈ tree.forest.postOrder right, stop tree id < start tree other := by
  have hwhole := whole_of_parse hparse
  have hid := hwhole.lt_size_of_mem_postOrder hmem
  rw [Tree.postOrder, Forest.postOrder_eq_order] at hmem
  have hlength : 2 = (tree.node id).operands.length :=
    Option.some.inj ((Kind.arity?_eq_two_iff.2 hkind).symm.trans (hwhole.arity id hid))
  obtain ⟨left, right, hoperands⟩ := List.length_eq_two.1 hlength.symm
  have horder : tree.forest.order id =
      tree.forest.order left ++ id :: tree.forest.order right := by
    have hnode : tree.forest.operandsOf id = [left, right] := by
      rw [hwhole.owned.operandsOf_eq]
      exact hoperands
    rw [Forest.order_eq, hnode]
    simp
  obtain ⟨front, back, hsegment⟩ := Forest.order_isInfix hmem
  have hwalk : tree.postOrder =
      (front ++ tree.forest.order left) ++ id :: (tree.forest.order right ++ back) := by
    rw [Tree.postOrder, Forest.postOrder_eq_order, ← hsegment, horder]
    simp
  refine ⟨left, right, hoperands, ?_, ?_⟩
  · rw [Forest.postOrder_eq_order]
    exact fun other hother => stop_lt_start_of_infix hparse hwalk hkind other
      (List.mem_append_right _ hother)
  · rw [Forest.postOrder_eq_order]
    exact fun other hother => stop_lt_start_of_closed hparse hwalk
      (keepsColumn_of_isInfix hkind) other
      (List.mem_append_left _ hother)

end Walk

/-! ### Words of a line -/

/-- The labels of the nodes of one depth, in the order of the walk. -/
def labelsAt (tree : Tree) (depth : Nat) : List String :=
  (tree.postOrder.filter (tree.depth · = depth)).map fun id => (tree.node id).label

variable {row : Nat} {marks : List Mark} {text label : String}

theorem Plain.spaced (h : Plain label) : Text.Spaced label.toList [label] := by
  have hword := Text.Spaced.word (fun hnil => h.1 (String.toList_inj.1 hnil)) h.2 (by simp) .nil
  rwa [List.append_nil, String.ofList_toList] at hword

/-- The words of a row are its labels. -/
theorem Spelled.words_eq (h : Spelled row marks text) :
    Text.words text = marks.map Mark.label := by
  refine Text.Spaced.words_eq ?_
  induction h with
  | blank => exact .nil
  | @label front start label _ hplain ih =>
      have hlabel : Text.Spaced (" " ++ label).toList [label] := by
        rw [String.toList_append]
        exact .blank (c := ' ') rfl hplain.spaced
      rw [String.append_assoc, String.toList_append, List.map_append]
      exact ih.append hlabel (by simp [Text.isBlank])
  | pad length _ ih =>
      have hblank : ∀ c ∈ (Text.spaces length).toList, Text.isBlank c = true :=
        fun _ => Text.isBlank_of_mem_spaces
      rw [String.toList_append, ← List.append_nil (List.map _ _)]
      exact ih.append (Text.spaced_of_blank hblank)
        fun c hc => hblank c (List.mem_of_mem_head? hc)

theorem labels_filter_row (tree : Tree) (row : Nat) :
    ((drawing tree).marks.filter (·.row = row)).map Mark.label = labelsAt tree row := by
  have hplaces := congrArg
    (fun places => (places.filter fun place => place.1 = row).map Prod.snd) (marks_drawing tree)
  simp only [Tree.entries, List.filter_map, List.map_map, Function.comp_def] at hplaces
  exact hplaces

/-- A drawing whose labels all show has a line for each depth, with the labels of that depth. -/
theorem words_of_lines (hparse : parse tokens = .ok tree)
    (hplain : ∀ id ∈ tree.postOrder, Plain (tree.node id).label) :
    (lines tree).length = tree.maxDepth ∧
      ∀ (depth : Nat) (line : String), (lines tree)[depth]? = some line →
        Text.words line = labelsAt tree (depth + 1) := by
  have hentries : ∀ entry ∈ tree.entries, Plain entry.label := List.forall_mem_map.2 hplain
  have hrows := map_trimEnd_rows hparse hentries
  constructor
  · have hlength := congrArg List.length hrows
    rw [List.length_map, List.length_cons] at hlength
    exact Nat.succ.inj (hlength.symm.trans (length_written tree tree.postOrder))
  · intro depth line hline
    have hrow : ((rows tree).map Text.trimEnd)[depth + 1]? = some line := by
      rw [hrows]
      exact hline
    rw [List.getElem?_map, ← rows_drawing, Option.map_eq_some_iff] at hrow
    obtain ⟨row, hrow, rfl⟩ := hrow
    rw [((legible_drawing hparse hentries).spelled _ row hrow).trimEnd.words_eq,
      labels_filter_row]

/-- How a drawing is laid out. -/
structure LaidOut (tree : Tree) : Prop where
  /-- A label is found in the row for its depth where it is said to begin. -/
  shown : ∀ id ∈ tree.postOrder, ∃ front back,
    (rows tree)[tree.depth id]? = some (front ++ (tree.node id).label ++ back) ∧
      front.utf8ByteSize = start tree id
  first : ∀ id ∈ tree.postOrder.head?, start tree id = 1
  next : ∀ before id next after, tree.postOrder = before ++ id :: next :: after →
    start tree next =
      if (tree.node next).kind.isUnary && keepsColumn (tree.node id).kind then start tree id
      else reach tree (before ++ [id]) + 1
  operands : ∀ id ∈ tree.postOrder, (tree.node id).kind.isInfix = true →
    ∃ left right, (tree.node id).operands = [left, right] ∧
      (∀ other ∈ tree.forest.postOrder left, stop tree other < start tree id) ∧
      ∀ other ∈ tree.forest.postOrder right, stop tree id < start tree other

end Layout

/-- Where the labels of a parsed tree stand, and what the lines of its drawing say. -/
theorem layout_of_parse {tokens : List Token} {tree : Tree} (hparse : parse tokens = .ok tree) :
    Layout.LaidOut tree ∧
      ((∀ id ∈ tree.postOrder, Layout.Plain (tree.node id).label) →
        ∃ lines : List String, tree.render [] = String.join (lines.map (· ++ "\n")) ∧
          (∀ line ∈ lines, '\n' ∉ line.toList) ∧ lines.length = tree.maxDepth ∧
          ∀ (depth : Nat) (line : String), lines[depth]? = some line →
            Text.words line = Layout.labelsAt tree (depth + 1)) := by
  constructor
  · exact ⟨fun _ => Layout.exists_label_rows hparse, fun _ => Layout.start_first hparse,
      fun _ _ _ _ => Layout.start_next hparse, fun _ => Layout.exists_operands_of_infix hparse⟩
  · intro hplain
    obtain ⟨hlength, hwords⟩ := Layout.words_of_lines hparse hplain
    exact ⟨Layout.lines tree, rfl,
      Layout.newline_not_mem_lines hparse (List.forall_mem_map.2 hplain), hlength, hwords⟩

/-- A suffix operator above an infix one goes on with the column of the last label of the right
    operand, and the placeholder has closed its own. The first label of the fourth line takes two
    bytes. -/
theorem layout_of_suffix_above_infix :
    ∃ tree, parse [⟨.prefixOp, "¬", ""⟩, ⟨.var, "a", ""⟩, ⟨.suffixOp, "!", ""⟩, ⟨.dyad, "+", ""⟩,
        ⟨.opening, "(", "round"⟩, ⟨.opening, "[", "square"⟩, ⟨.closing, "]", "square"⟩,
        ⟨.dyad, "*", ""⟩, ⟨.prefixOp, "-", ""⟩, ⟨.var, "b", ""⟩, ⟨.closing, ")", "round"⟩,
        ⟨.suffixOp, "?", ""⟩] = .ok tree ∧
      tree.render [] =
        "               ?\n    +\n !           *\n ¬   empty2   -\n a             b\n" ∧
      tree.postOrder.map (Layout.start tree) = [1, 1, 1, 4, 6, 13, 15, 15, 15] ∧
      Layout.LaidOut tree ∧
      ∃ lines : List String, tree.render [] = String.join (lines.map (· ++ "\n")) ∧
        (∀ line ∈ lines, '\n' ∉ line.toList) ∧ lines.length = tree.maxDepth ∧
        ∀ (depth : Nat) (line : String), lines[depth]? = some line →
          Text.words line = Layout.labelsAt tree (depth + 1) := by
  have hparse : parse [⟨.prefixOp, "¬", ""⟩, ⟨.var, "a", ""⟩, ⟨.suffixOp, "!", ""⟩,
      ⟨.dyad, "+", ""⟩, ⟨.opening, "(", "round"⟩, ⟨.opening, "[", "square"⟩,
      ⟨.closing, "]", "square"⟩, ⟨.dyad, "*", ""⟩, ⟨.prefixOp, "-", ""⟩, ⟨.var, "b", ""⟩,
      ⟨.closing, ")", "round"⟩, ⟨.suffixOp, "?", ""⟩] =
      .ok ⟨⟨#[⟨.var, "a", [], some 1⟩, ⟨.prefixOp, "¬", [0], some 2⟩,
        ⟨.suffixOp, "!", [1], some 7⟩, ⟨.term, "empty2", [], some 6⟩, ⟨.var, "b", [], some 5⟩,
        ⟨.prefixOp, "-", [4], some 6⟩, ⟨.dyad, "*", [3, 5], some 7⟩, ⟨.dyad, "+", [2, 6], some 8⟩,
        ⟨.suffixOp, "?", [7], none⟩]⟩, 8⟩ := by
    decide +kernel
  obtain ⟨hcolumns, hlines⟩ := layout_of_parse hparse
  exact ⟨_, hparse, by decide +kernel, by decide +kernel, hcolumns, hlines (by decide +kernel)⟩

end OperatorTerms
