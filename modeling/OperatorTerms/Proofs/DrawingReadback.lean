/-
Module: OperatorTerms.Proofs.DrawingReadback
Layer: Proofs
Purpose: A drawing says all about the tree. Where the labels come from codes without blanks, the
  text of a drawing gives the rows, the rows give the labels with their columns, and these give the
  nodes in the order of the walk, with their depths. A label begins with the letter of its kind or,
  for a placeholder, with a letter that no kind has, so the kinds can be read as well; and depths,
  kinds and labels along the walk make up the term.
Imports: Mathlib.Data.List.Sort, OperatorTerms.Proofs.DrawingOrder
Main exports: Kind.ofLabel, Term.Formed.labelled, Layout.drawing, Layout.legible_drawing,
  Layout.map_trimEnd_rows, Layout.Drawing.Legible.marks_unique, term_eq_of_render_eq
-/
import Mathlib.Data.List.Sort
import OperatorTerms.Proofs.DrawingOrder

namespace OperatorTerms

/-! ### Labels and kinds -/

/-- The kind that a label shows by its first letter. Placeholders begin with a letter that no kind
    has. -/
def Kind.ofLabel (label : String) : Kind := (label.toList.head?.bind Kind.ofCode?).getD .term

/-- A label that fits its kind and shows in one piece. -/
def Labelled (kind : Kind) (label : String) : Prop :=
  Kind.ofLabel label = kind ∧ Layout.Plain label

theorem Token.exists_code {codes : List String} {tokens : List Token} {token : Token}
    (h : Token.ofCodes codes = .ok tokens) (hmem : token ∈ tokens) :
    ∃ code ∈ codes, Token.ofCode code = .ok token := by
  induction codes generalizing tokens with
  | nil =>
      cases h
      contradiction
  | cons code codes ih =>
      rw [ofCodes, List.mapM_cons] at h
      obtain ⟨first, hfirst, h⟩ := bind_eq_ok_iff.1 h
      obtain ⟨rest, hrest, h⟩ := bind_eq_ok_iff.1 h
      cases h
      rcases List.mem_cons.1 hmem with rfl | hmem
      · exact ⟨code, List.mem_cons_self, hfirst⟩
      · obtain ⟨other, hother, htoken⟩ := ih hrest hmem
        exact ⟨other, List.mem_cons_of_mem _ hother, htoken⟩

/-- A code that is a token begins with the letter of its kind, and is its label. -/
theorem Token.exists_letter {code : String} {token : Token} (h : Token.ofCode code = .ok token) :
    ∃ letter text, code.toList = letter :: text ∧ Kind.ofCode? letter = some token.kind ∧
      token.label = code := by
  unfold ofCode at h
  split at h
  · contradiction
  · rename_i letter text htext
    split at h
    · contradiction
    · contradiction
    · rename_i kind _ hkind
      cases h
      exact ⟨letter, text, htext, hkind, rfl⟩

theorem Token.ofLabel_label {code : String} {token : Token} (h : Token.ofCode code = .ok token) :
    Kind.ofLabel token.label = token.kind := by
  obtain ⟨letter, text, htext, hkind, hlabel⟩ := exists_letter h
  rw [hlabel, Kind.ofLabel, htext, List.head?_cons, Option.bind_some, hkind]
  rfl

theorem Token.plain_label {code : String} {token : Token} (h : Token.ofCode code = .ok token)
    (hcode : ∀ c ∈ code.toList, Text.isBlank c = false) : Layout.Plain token.label := by
  obtain ⟨letter, text, htext, -, hlabel⟩ := exists_letter h
  rw [hlabel]
  refine ⟨?_, hcode⟩
  rintro rfl
  contradiction

/-- Made of codes, a node has a label that shows its kind. -/
theorem Made.ofLabel_eq {codes : List String} {tokens : List Token} {kind : Kind} {label : String}
    {operands : Nat} (htokens : Token.ofCodes codes = .ok tokens)
    (h : Made tokens kind label operands) : Kind.ofLabel label = kind := by
  cases h with
  | token hmem _ =>
      obtain ⟨code, -, htoken⟩ := Token.exists_code htokens hmem
      exact Token.ofLabel_label htoken
  | placeholder hlabel =>
      simp only [List.mem_cons, List.not_mem_nil, or_false] at hlabel
      rcases hlabel with rfl | rfl <;> decide

/-- To say that codes have no blanks in them, it is enough to look at each character once. -/
theorem unblank_of_all {codes : List String}
    (h : codes.all (fun code => code.toList.all fun c => !Text.isBlank c) = true) :
    ∀ code ∈ codes, ∀ c ∈ code.toList, Text.isBlank c = false := by
  simpa using h

section Sources

variable {codes : List String} {tokens : List Token}
  (htokens : Token.ofCodes codes = .ok tokens)
  (hcodes : ∀ code ∈ codes, ∀ c ∈ code.toList, Text.isBlank c = false)

include htokens hcodes

theorem Made.labelled {kind : Kind} {label : String} {operands : Nat}
    (h : Made tokens kind label operands) : Labelled kind label := by
  refine ⟨h.ofLabel_eq htokens, ?_⟩
  cases h with
  | token hmem _ =>
      obtain ⟨code, hcode, htoken⟩ := Token.exists_code htokens hmem
      exact Token.plain_label htoken (hcodes code hcode)
  | placeholder hlabel =>
      have hplain := unblank_of_all (by decide) _ hlabel
      simp only [List.mem_cons, List.not_mem_nil, or_false] at hlabel
      rcases hlabel with rfl | rfl
      · exact ⟨by decide, hplain⟩
      · exact ⟨by decide, hplain⟩

theorem Term.Formed.labelled {term : Term} {depth : Nat} (h : term.Formed tokens) :
    ∀ entry ∈ term.entries depth, Labelled entry.kind entry.label := by
  induction h generalizing depth with
  | atom hmade => simpa [entries] using hmade.labelled htokens hcodes
  | unary hmade _ ih =>
      simp only [entries, entriesAll, List.forall_mem_append, List.forall_mem_singleton]
      exact ⟨ih, hmade.labelled htokens hcodes⟩
  | infixed hmade _ _ ihleft ihright =>
      simp only [entries, entriesAll, List.append_nil, List.forall_mem_append,
        List.forall_mem_cons]
      exact ⟨ihleft, hmade.labelled htokens hcodes, ihright⟩

end Sources

/-- The kinds along a walk can be read off the labels. -/
theorem entries_of_places {entries : List Entry}
    (h : ∀ entry ∈ entries, Labelled entry.kind entry.label) :
    (entries.map fun entry => (entry.depth, entry.label)).map
      (fun place => ⟨place.1, Kind.ofLabel place.2, place.2⟩) = entries := by
  rw [List.map_map]
  refine (List.map_congr_left fun entry hmem => ?_).trans (List.map_id entries)
  rw [Function.comp_apply, (h entry hmem).1]
  rfl

namespace Layout

/-! ### The drawing of a tree -/

/-- The drawing of a tree before trimming. -/
def drawing (tree : Tree) : Drawing :=
  Drawing.drawAll ⟨List.replicate (tree.maxDepth + 1) "", []⟩ tree.entries

theorem Drawing.rows_draw (drawing : Drawing) (entry : Entry) :
    (drawing.draw entry).rows =
      let rows := if entry.kind.isInfix then align drawing.rows else drawing.rows
      let rows := rows.modify entry.depth fun row => row ++ " " ++ entry.label
      if keepsColumn entry.kind then rows else align rows := by
  rcases entry with ⟨depth, kind, label⟩
  cases kind <;> rfl

theorem rows_drawing (tree : Tree) : (drawing tree).rows = rows tree := by
  have hdraw (ids : List NodeId) (drawing : Drawing) :
      (drawing.drawAll (ids.map tree.forest.entry)).rows = ids.foldl (place tree) drawing.rows := by
    induction ids generalizing drawing with
    | nil => rfl
    | cons id ids ih =>
        refine (ih _).trans ?_
        rw [Drawing.rows_draw]
        rfl
  exact hdraw tree.postOrder _

theorem Drawing.marks_drawAll (drawing : Drawing) (entries : List Entry) :
    (drawing.drawAll entries).marks.map (fun mark => (mark.row, mark.label)) =
      drawing.marks.map (fun mark => (mark.row, mark.label)) ++
        entries.map fun entry => (entry.depth, entry.label) := by
  induction entries generalizing drawing with
  | nil => simp [drawAll]
  | cons entry entries ih =>
      have hdraw : (drawing.draw entry).marks.map (fun mark => (mark.row, mark.label)) =
          drawing.marks.map (fun mark => (mark.row, mark.label)) ++
            [(entry.depth, entry.label)] := by
        simp only [draw]
        cases entry.kind.isInfix <;> cases keepsColumn entry.kind <;>
          simp [Drawing.write, Drawing.aligned]
      rw [drawAll, List.foldl_cons, ← drawAll, ih, hdraw, List.append_assoc]
      rfl

/-- The labels are those of the nodes, in the rows for their depths. -/
theorem marks_drawing (tree : Tree) :
    (drawing tree).marks.map (fun mark => (mark.row, mark.label)) =
      tree.entries.map fun entry => (entry.depth, entry.label) :=
  Drawing.marks_drawAll _ tree.entries

theorem legible_initial (length ready : Nat) :
    Drawing.Legible ⟨List.replicate length "", []⟩ ready := by
  have htext {row : Nat} {text : String} (h : (List.replicate length "")[row]? = some text) :
      text = "" := List.eq_of_mem_replicate (List.mem_of_getElem? h)
  refine ⟨?_, by simp, .nil, 0, ?_, by simp⟩
  · intro row text h
    rw [htext h]
    exact .blank
  · intro row _ text h
    rw [htext h]
    rfl

/-- The drawing of a parsed tree can be read if its labels can. -/
theorem legible_drawing {tokens : List Token} {tree : Tree} (hparse : parse tokens = .ok tree)
    (hplain : ∀ entry ∈ tree.entries, Plain entry.label) : (drawing tree).Legible 1 := by
  have hentries := (whole_of_parse hparse).entries_eq
  have hdepth : ∀ entry ∈ tree.entries, entry.depth ≤ tree.maxDepth := by
    intro entry hmem
    obtain ⟨id, hid, rfl⟩ := List.mem_map.1 hmem
    exact List.le_max?_getD_of_mem (List.mem_map_of_mem hid)
  rw [drawing, hentries]
  refine Drawing.Legible.drawAll (formed_of_parse hparse) (legible_initial _) ?_
  intro entry hmem
  rw [← hentries] at hmem
  rw [List.length_replicate]
  exact ⟨Nat.lt_succ_of_le (hdepth entry hmem), hplain entry hmem⟩

/-! ### From the text to the labels -/

instance : Std.Irrefl Mark.Before where
  irrefl _ h := h.elim (Nat.lt_irrefl _) fun h => Nat.lt_irrefl _ h.2

instance : Std.Antisymm Mark.Before where
  antisymm first second h h' := by
    simp only [Mark.Before] at h h'
    omega

/-- Rows that are the same but for the blanks at their ends have the same labels. -/
theorem Drawing.Legible.marks_unique {drawing drawing' : Drawing} {ready ready' : Nat}
    (h : drawing.Legible ready) (h' : drawing'.Legible ready')
    (hrows : drawing.rows.map Text.trimEnd = drawing'.rows.map Text.trimEnd) :
    drawing.marks = drawing'.marks := by
  have hlength : drawing.rows.length = drawing'.rows.length := by
    simpa using congrArg List.length hrows
  -- Row by row the labels are the same, and how they stand fixes their order.
  have hrow (row : Nat) (hlt : row < drawing.rows.length) :
      drawing.marks.filter (·.row = row) = drawing'.marks.filter (·.row = row) := by
    have htext := List.getElem?_eq_getElem hlt
    have htext' := List.getElem?_eq_getElem (hlength ▸ hlt)
    refine (h.spelled row _ htext).unique (h'.spelled row _ htext') ?_
    have htrim := congrArg (·[row]?) hrows
    simpa [htext, htext'] using htrim
  refine h.sorted.eq_of_mem_iff h'.sorted fun mark => ?_
  constructor
  · intro hmem
    have hfilter : mark ∈ drawing.marks.filter (·.row = mark.row) :=
      List.mem_filter.2 ⟨hmem, decide_eq_true rfl⟩
    exact (List.mem_filter.1 (hrow mark.row (h.inside mark hmem) ▸ hfilter)).1
  · intro hmem
    have hfilter : mark ∈ drawing'.marks.filter (·.row = mark.row) :=
      List.mem_filter.2 ⟨hmem, decide_eq_true rfl⟩
    exact (List.mem_filter.1 (hrow mark.row (hlength ▸ h'.inside mark hmem) ▸ hfilter)).1

theorem filter_row_eq_nil_iff {tokens : List Token} {tree : Tree}
    (hparse : parse tokens = .ok tree) {row : Nat} :
    (drawing tree).marks.filter (·.row = row) = [] ↔
      ∀ entry ∈ tree.term.entries 1, entry.depth ≠ row := by
  have hrow := congrArg (fun places => row ∉ places.map Prod.fst) (marks_drawing tree)
  rw [(whole_of_parse hparse).entries_eq] at hrow
  simpa [List.filter_eq_nil_iff] using hrow

/-- Only the row before that of the root is left out of a drawing. -/
theorem map_trimEnd_rows {tokens : List Token} {tree : Tree} (hparse : parse tokens = .ok tree)
    (hplain : ∀ entry ∈ tree.entries, Plain entry.label) :
    (rows tree).map Text.trimEnd = "" :: lines tree := by
  have hlegible := legible_drawing hparse hplain
  -- Depths count from one, so row zero has no label, and the root's label is in row one.
  have hzero : (drawing tree).marks.filter (·.row = 0) = [] :=
    (filter_row_eq_nil_iff hparse).2 fun entry hentry =>
      Nat.ne_of_gt ((formed_of_parse hparse).le_depth entry hentry)
  have hone : (drawing tree).marks.filter (·.row = 1) ≠ [] := fun hnil =>
    (filter_row_eq_nil_iff hparse).1 hnil _ (Term.root_mem_entries 1 tree.term) rfl
  obtain ⟨mark, hmark⟩ := List.exists_mem_of_ne_nil _ hone
  obtain ⟨hmark, hrow⟩ := List.mem_filter.1 hmark
  have hinside := hlegible.inside mark hmark
  have hspelled := hlegible.spelled
  rw [lines, ← rows_drawing]
  rcases hrows : (drawing tree).rows with _ | ⟨first, _ | ⟨second, rest⟩⟩
  · simp [hrows] at hinside
  · simp [hrows, of_decide_eq_true hrow] at hinside
  · rw [hrows] at hspelled
    have hfirst := (hspelled 0 first rfl).trimEnd_eq_empty_iff.2 hzero
    have hsecond : Text.trimEnd second ≠ "" := fun hempty =>
      hone ((hspelled 1 second rfl).trimEnd_eq_empty_iff.1 hempty)
    simp [hfirst, hsecond]

theorem newline_not_mem_lines {tokens : List Token} {tree : Tree} (hparse : parse tokens = .ok tree)
    (hplain : ∀ entry ∈ tree.entries, Plain entry.label) :
    ∀ line ∈ lines tree, '\n' ∉ line.toList := by
  intro line hline hnewline
  have hmem := List.dropWhile_sublist _ |>.subset hline
  rw [← rows_drawing] at hmem
  obtain ⟨text, htext, rfl⟩ := List.mem_map.1 hmem
  obtain ⟨row, hrow⟩ := List.mem_iff_getElem?.1 htext
  exact ((legible_drawing hparse hplain).spelled row text hrow).newline_not_mem
    (Text.mem_of_mem_trimEnd hnewline)

/-- The text of a drawing without a title determines the labels and where they stand. -/
theorem marks_eq_of_render_eq {tokens tokens' : List Token} {tree tree' : Tree}
    (hparse : parse tokens = .ok tree) (hparse' : parse tokens' = .ok tree')
    (hplain : ∀ entry ∈ tree.entries, Plain entry.label)
    (hplain' : ∀ entry ∈ tree'.entries, Plain entry.label)
    (hrender : tree.render [] = tree'.render []) :
    (drawing tree).marks = (drawing tree').marks := by
  have hlines : lines tree = lines tree' :=
    Text.lines_injective (newline_not_mem_lines hparse hplain)
      (newline_not_mem_lines hparse' hplain') hrender
  refine (legible_drawing hparse hplain).marks_unique (legible_drawing hparse' hplain') ?_
  rw [rows_drawing, rows_drawing, map_trimEnd_rows hparse hplain,
    map_trimEnd_rows hparse' hplain', hlines]

end Layout

/-- Two trees with the same drawing have the same operands, labels and kinds. -/
theorem term_eq_of_render_eq {codes codes' : List String} {tokens tokens' : List Token}
    {tree tree' : Tree} (hcodes : ∀ code ∈ codes, ∀ c ∈ code.toList, Text.isBlank c = false)
    (hcodes' : ∀ code ∈ codes', ∀ c ∈ code.toList, Text.isBlank c = false)
    (htokens : Token.ofCodes codes = .ok tokens) (htokens' : Token.ofCodes codes' = .ok tokens')
    (hparse : parse tokens = .ok tree) (hparse' : parse tokens' = .ok tree')
    (hrender : tree.render [] = tree'.render []) : tree.term = tree'.term := by
  have hformed := formed_of_parse hparse
  have hformed' := formed_of_parse hparse'
  have hwalk := (whole_of_parse hparse).entries_eq
  have hwalk' := (whole_of_parse hparse').entries_eq
  have hlabelled : ∀ entry ∈ tree.entries, Labelled entry.kind entry.label :=
    hwalk ▸ hformed.labelled htokens hcodes
  have hlabelled' : ∀ entry ∈ tree'.entries, Labelled entry.kind entry.label :=
    hwalk' ▸ hformed'.labelled htokens' hcodes'
  have hmarks := Layout.marks_eq_of_render_eq hparse hparse'
    (fun entry hmem => (hlabelled entry hmem).2) (fun entry hmem => (hlabelled' entry hmem).2)
    hrender
  have hplaces : tree.entries.map (fun entry => (entry.depth, entry.label)) =
      tree'.entries.map fun entry => (entry.depth, entry.label) := by
    rw [← Layout.marks_drawing, ← Layout.marks_drawing, hmarks]
  have hentries : tree.entries = tree'.entries := by
    rw [← entries_of_places hlabelled, ← entries_of_places hlabelled', hplaces]
  rw [hwalk, hwalk'] at hentries
  exact hformed.entries_injective hformed' hentries

/-- Redundant parentheses and a final semi-colon leave no trace in a drawing, nor in the term. -/
theorem term_eq_of_render_eq_grouped :
    ∃ tree tree' : Tree,
      parse [⟨.opening, "b", ""⟩, ⟨.var, "v1", ""⟩, ⟨.dyad, "d2", ""⟩, ⟨.var, "v3", ""⟩,
        ⟨.closing, "B", ""⟩] = .ok tree ∧
      parse [⟨.var, "v1", ""⟩, ⟨.dyad, "d2", ""⟩, ⟨.var, "v3", ""⟩, ⟨.semicolon, "s4", ""⟩] =
        .ok tree' ∧
      tree.render [] = "    d2\n v1    v3\n" ∧ tree'.render [] = "    d2\n v1    v3\n" ∧
      tree.term = tree'.term := by
  refine ⟨⟨⟨#[⟨.var, "v1", [], some 2⟩, ⟨.var, "v3", [], some 2⟩, ⟨.dyad, "d2", [0, 1], none⟩]⟩,
    2⟩, ⟨⟨#[⟨.var, "v1", [], some 2⟩, ⟨.var, "v3", [], some 2⟩, ⟨.dyad, "d2", [0, 1], none⟩]⟩,
    2⟩, by decide +kernel, by decide +kernel, by decide +kernel, by decide +kernel, ?_⟩
  exact @term_eq_of_render_eq ["b", "v1", "d2", "v3", "B"] ["v1", "d2", "v3", "s4"] _ _ _ _
    (unblank_of_all (by decide)) (unblank_of_all (by decide)) (by rfl) (by rfl)
    (by decide +kernel) (by decide +kernel) (by decide +kernel)

end OperatorTerms
