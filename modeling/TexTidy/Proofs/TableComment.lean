import TexTidy.Proofs.Guard
import TexTidy.Proofs.Lossless

/-!
# TexTidy.Proofs.TableComment

Comments in a table. A table is aligned only if each cell and each rule can be written on one line, and a
comment takes a line break with it, so no comment is in a cell or in a rule. What is left is the comment at
the end of a row, and comments inside the node that ends a row, which is written as it is.

* `rowsHold_splitFrom`: every comment of the content is at one of these two places of some row;
* `shown_lines`: the lines of the row show it there;
* `guards_tableDoc`: hence the table guards the comments of its content.
-/

namespace TexTidy

open Bytes (ink)
open Layout (Atom Doc)
open Node (Each All Sound Fenced Linked rawAll trim marks marksAll)

/-! ## nodes on one line -/

theorem BreaksLine.mem {s : Bytes} (h : BreaksLine s) : Byte.newline ∈ s := by
  obtain ⟨y, rfl | rfl⟩ := h <;> simp

theorem BreaksLine.append {s : Bytes} (h : BreaksLine s) (t : Bytes) : BreaksLine (s ++ t) := by
  obtain ⟨y, rfl | rfl⟩ := h
  · exact ⟨y ++ t, .inl rfl⟩
  · exact ⟨y ++ t, .inr rfl⟩

/-- Stripping a text does not reach back to the end of a line. -/
theorem BreaksLine.exists_stripEnd {t : Bytes} (h : BreaksLine t) (blank : UInt8 → Bool)
    (hblank : blank Byte.newline = false) (s : Bytes) :
    ∃ t', Text.stripEnd blank (s ++ t) = s ++ t' ∧ BreaksLine t' := by
  obtain ⟨y, rfl | rfl⟩ := h
  · obtain ⟨kept, -, hstrip, -⟩ := Text.exists_stripEnd_append hblank s y
    exact ⟨_, hstrip, kept, .inl rfl⟩
  · obtain ⟨kept, -, hstrip, -⟩ := Text.exists_stripEnd_append hblank (s ++ [Byte.carriageReturn]) y
    exact ⟨Byte.carriageReturn :: Byte.newline :: kept, by simpa using hstrip, kept, .inr rfl⟩

namespace Node

/-- A comment inside a node breaks a line of its text. -/
theorem marks_of_line {n : Node} (hsound : Each Sound n) (hfenced : Each Fenced n)
    (hcomment : n.comment? = none) (hline : n.raw.hasNewline = false) : n.marks = [] := by
  refine List.eq_nil_iff_forall_not_mem.2 fun m hm => ?_
  obtain ⟨s, t, hraw, -, hbreaks⟩ := (cuts_rawPieces n hsound hfenced hcomment m hm).text
  have hmem : Byte.newline ∈ n.raw := by
    rw [raw, hraw]
    simp [hbreaks.mem]
  simp [Bytes.hasNewline, hmem] at hline

/-- White space, or a node that is on one line and no comment. -/
def Flat (n : Node) : Prop :=
  n.isSpace = true ∨ n.comment? = none ∧ n.raw.hasNewline = false

theorem marks_of_flat {n : Node} (hsound : Each Sound n) (hfenced : Each Fenced n) (h : n.Flat) :
    n.marks = [] := by
  rcases h with hspace | ⟨hcomment, hline⟩
  · exact marks_of_isSpace hspace
  · exact marks_of_line hsound hfenced hcomment hline

theorem not_flat_comment {n : Node} {c : Comment} (hc : n.comment? = some c) : ¬ n.Flat := by
  rintro (hspace | ⟨hcomment, -⟩)
  · rw [isSpace_of_comment? hc] at hspace
    cases hspace
  · cases hc.symm.trans hcomment

/-- What is trimmed from a sequence is flat. -/
theorem flat_of_trim {ns : List Node} (h : ∀ n ∈ trim ns, n.Flat) : ∀ n ∈ ns, n.Flat := by
  obtain ⟨front, back, hns, hfront, hback⟩ := trim_eq ns
  intro n hn
  rw [hns] at hn
  rcases List.mem_append.1 hn with hn | hn
  · rcases List.mem_append.1 hn with hn | hn
    · exact .inl (hfront n hn)
    · exact h n hn
  · exact .inl (hback n hn)

theorem mem_marksAll_cons {n : Node} {ns : List Node} {m : Mark} (h : m ∈ marksAll (n :: ns)) :
    m ∈ n.marks ∨ ∃ k ∈ marksAll ns, m = k.shift (ink n.raw) := by
  rw [marksAll] at h
  refine (List.mem_append.1 h).imp_right fun hm => ?_
  obtain ⟨k, hk, rfl⟩ := List.mem_map.1 hm
  exact ⟨k, hk, rfl⟩

end Node

namespace Table

open Node (Flat)

/-- The nodes of a cell on one line are flat. -/
theorem Cell.flat_of_joined? {cell : Cell} {text : Bytes} (h : Cell.joined? cell = some text)
    (hline : text.hasNewline = false) : ∀ n ∈ cell, n.Flat := by
  induction cell generalizing text with
  | nil => simp
  | cons n ns ih =>
    rw [Cell.joined?] at h
    split at h
    · cases h
    · next hn =>
      obtain ⟨tail, htail, rfl⟩ := Option.map_eq_some_iff.1 h
      simp only [Bytes.hasNewline, List.contains_append, Bool.or_eq_false_iff] at hline
      refine List.forall_mem_cons.2 ⟨?_, ih htail hline.2⟩
      cases hplain : n.isPlainSpace with
      | true => exact .inl (Node.isSpace_of_isPlainSpace hplain)
      | false =>
        have hhead := hline.1
        rw [hplain, if_neg (by simp)] at hhead
        exact .inr ⟨by simpa using (not_or.1 (mt Bool.or_eq_true_iff.2 hn)).2, hhead⟩

theorem Cell.flat_of_text {cell : Cell} (h : (Cell.text (trim cell)).2 = true) : ∀ n ∈ cell, n.Flat := by
  refine Node.flat_of_trim ?_
  unfold Cell.text at h
  split at h
  · next text htext => exact Cell.flat_of_joined? htext (by simpa using h)
  · cases h

namespace Row

/-- What a row is made of can be written on lines of its own. -/
structure Level (row : Row) (cell : Cell) : Prop where
  cells : ∀ c ∈ row.cells, (Cell.text c).2 = true
  cell : ∀ n ∈ cell, n.Flat
  rules : ∀ n ∈ row.rules, n.raw.hasNewline = false

/-- The last cell of a row is level if the row is. -/
theorem level_of_addCell {row : Row} {cell : Cell} {rows : List Row} {row' : Row}
    (h : isGrid (row' :: rows) = true) (hcells : row'.cells = row.cells ++ [trim cell])
    (hrules : row'.rules = row.rules) : row.Level cell := by
  simp only [isGrid, List.all_cons, Bool.and_eq_true, List.all_eq_true, hcells, hrules] at h
  refine ⟨fun c hc => h.1.1 c (by simp [hc]), Cell.flat_of_text (h.1.1 _ (by simp)), fun n hn => ?_⟩
  simpa using h.1.2 n hn

/-- The row under construction is level if it ends up in a grid. -/
theorem level_of_isGrid (row : Row) (cell : Cell) (ns : List Node)
    (h : isGrid (splitFrom row cell ns) = true) : row.Level cell := by
  fun_induction splitFrom row cell ns with
  | case1 row cell hempty =>
    obtain ⟨hfresh, hrules⟩ := Bool.and_eq_true_iff.1 hempty
    obtain ⟨hcells, htrim⟩ := fresh_iff hfresh
    refine ⟨by simp [hcells], Node.flat_of_trim (by simp [htrim]), ?_⟩
    simp [List.isEmpty_iff.1 hrules]
  | case2 row cell => exact level_of_addCell h rfl rfl
  | case3 row cell n rest sep hsep row' ih =>
    obtain ⟨hcells, -, hrules⟩ := ih h
    refine ⟨fun c hc => hcells c ?_, Cell.flat_of_text (hcells _ ?_), hrules⟩
    · exact List.mem_append_left _ hc
    · exact List.mem_append_right _ (by simp)
  | case4 row cell n rest c hc hsep hinside ih =>
    obtain ⟨hcells, hcell, hrules⟩ := ih h
    exact ⟨hcells, fun n hn => hcell n (by simp [hn]), hrules⟩
  | case5 row cell n rest c hc hsep hends ih => exact level_of_addCell h rfl rfl
  | case6 row cell n hc hsep hends row' m more hsame ih => exact level_of_addCell h rfl rfl
  | case7 row cell n hc hsep hends row' m more hsame ih => exact level_of_addCell h rfl rfl
  | case8 row cell n hc hsep hends row' ih => exact level_of_addCell h rfl rfl
  | case9 row cell n rest hc hsep hends hrule ih =>
    obtain ⟨hcells, -, hrules⟩ := ih h
    obtain ⟨-, htrim⟩ := fresh_iff (Bool.and_eq_true_iff.1 hrule).2
    exact ⟨hcells, Node.flat_of_trim (by simp [htrim]), fun n hn => hrules n (by simp [hn])⟩
  | case10 row cell n rest hc hsep hends hrule ih =>
    obtain ⟨hcells, hcell, hrules⟩ := ih h
    exact ⟨hcells, fun n hn => hcell n (by simp [hn]), hrules⟩

/-! ## rows and their comments -/

/-- The ink of a row before its row separator. -/
def frontInk (row : Row) : Bytes :=
  Bytes.ink (rawAll row.rules) ++ Bytes.ink (weave row.cells row.separators)

/-- The comment of a mark is at the end of the row, or in its row separator with a line break behind. -/
def Holds (m : Mark) (row : Row) : Prop :=
  row.comment.bind Node.comment? = some m.comment ∧
      m.before = row.frontInk ++ Bytes.ink row.rowSeparator ∨
    ∃ s t, row.rowSeparator = s ++ Byte.percent :: (m.comment.content ++ t) ∧ BreaksLine t ∧
      m.before = row.frontInk ++ Bytes.ink s

end Row

/-- The comment of a mark is in one of the rows. -/
def RowsHold : Mark → List Row → Prop
  | _, [] => False
  | m, row :: rows => row.Holds m ∨ ∃ k, m = k.shift row.ink ∧ RowsHold k rows

namespace Row

theorem rowsHold_tail {row : Row} {rows : List Row} {k : Mark} {s t : Bytes} (h : RowsHold k rows)
    (hink : row.ink = s ++ t) : RowsHold ((k.shift t).shift s) (row :: rows) :=
  .inr ⟨k, by simp [hink, Mark.shift], h⟩

/-- The ink of a row under construction is all before its row separator. -/
theorem frontInk_addCell {row : Row} {cell : Cell} (hrow : row.Growing) (hcell : All Sound cell) :
    (row.addCell cell).frontInk = row.ink ++ Bytes.ink (rawAll cell) := by
  rw [← ink_addCell hrow hcell]
  simp [ink, frontInk, addCell, commentInk, hrow.unclosed, hrow.uncommented]

/-- The comment at the end of a row. -/
theorem holds_comment {row row' : Row} {cell : Cell} {n : Node} {c : Comment} (hrow : row.Growing)
    (hcell : All Sound cell) (hc : n.comment? = some c) (hcomment : row'.comment = some n)
    (hfront : row'.frontInk = (row.addCell cell).frontInk) :
    row'.Holds (.shift (row.ink ++ Bytes.ink (rawAll cell)) ⟨Bytes.ink row'.rowSeparator, c⟩) := by
  refine .inl ⟨by rw [hcomment]; exact hc, ?_⟩
  rw [hfront, frontInk_addCell hrow hcell]
  rfl

/-- A comment inside the node that ends a row. -/
theorem holds_separator {row row' : Row} {cell : Cell} {n : Node} {m : Mark} (hrow : row.Growing)
    (hcell : All Sound cell) (hsound : Each Sound n) (hfenced : Each Fenced n)
    (hcomment : n.comment? = none) (hm : m ∈ n.marks) (hsep : row'.rowSeparator = n.raw)
    (hfront : row'.frontInk = (row.addCell cell).frontInk) :
    row'.Holds (m.shift (row.ink ++ Bytes.ink (rawAll cell))) := by
  obtain ⟨s, t, hraw, hink, hbreaks⟩ := (Node.cuts_rawPieces n hsound hfenced hcomment m hm).text
  refine .inr ⟨s, t, hsep.trans hraw, hbreaks, ?_⟩
  rw [hfront, frontInk_addCell hrow hcell, hink]
  rfl

theorem eq_of_mem_marks {n : Node} {c : Comment} {m : Mark} (hc : n.comment? = some c)
    (hm : m ∈ n.marks) : m = ⟨[], c⟩ := by
  obtain ⟨span, hints, before, rfl⟩ := Node.exists_of_comment? hc
  exact List.mem_singleton.1 hm

theorem marks_columnSeparator {n : Node} {sep : Bytes} (h : columnSeparator? n = some sep) :
    n.marks = [] := by
  unfold columnSeparator? at h
  split at h
  · rfl
  · cases h

/-- **Every comment of the nodes that are left ends up in a row**, if the rows make a grid. -/
theorem rowsHold_splitFrom (row : Row) (cell : Cell) (ns : List Node) (hrow : row.Growing)
    (hcell : All Sound cell) (hsound : All Sound ns) (hfenced : All Fenced ns)
    (hgrid : isGrid (splitFrom row cell ns) = true) : ∀ m ∈ marksAll ns,
      RowsHold (m.shift (row.ink ++ Bytes.ink (rawAll cell))) (splitFrom row cell ns) := by
  have hempty : All Sound ([] : Cell) := Node.all_nil _
  fun_induction splitFrom row cell ns with
  | case1 => simp [marksAll]
  | case2 => simp [marksAll]
  | case3 row cell n rest sep hsep row' ih =>
    intro m hm
    rcases Node.mem_marksAll_cons hm with hm | ⟨k, hk, rfl⟩
    · simp [marks_columnSeparator hsep] at hm
    · have hrows := ih (growing_addSeparator cell sep hrow) hempty (Node.all_cons_iff.1 hsound).2
        (Node.all_cons_iff.1 hfenced).2 hgrid k hk
      rw [ink_addSeparator sep hrow hcell] at hrows
      simpa [Mark.shift, raw_columnSeparator? hsep] using hrows
  | case4 row cell n rest c hc hsep hinside ih =>
    exact absurd ((level_of_isGrid _ _ _ hgrid).cell n (by simp)) (Node.not_flat_comment hc)
  | case5 row cell n rest c hc hsep hends ih =>
    obtain ⟨hn, hrest⟩ := Node.all_cons_iff.1 hsound
    have hgrid' : isGrid (splitFrom {} [] rest) = true := (Bool.and_eq_true_iff.1 hgrid).2
    intro m hm
    rcases Node.mem_marksAll_cons hm with hm | ⟨k, hk, rfl⟩
    · rw [eq_of_mem_marks hc hm]
      have hholds : ({ row.addCell cell with comment := some n } : Row).Holds _ :=
        holds_comment hrow hcell hc rfl rfl
      exact .inl (by simpa [addCell, hrow.unclosed] using hholds)
    · exact rowsHold_tail (ih growing_empty hempty hrest (Node.all_cons_iff.1 hfenced).2 hgrid' k hk)
        (ink_closeComment hrow hcell hn.self hc)
  | case6 row cell n hc hsep hends row' m more hsame ih =>
    obtain ⟨hn, hrest⟩ := Node.all_cons_iff.1 hsound
    obtain ⟨hm, hmore⟩ := Node.all_cons_iff.1 hrest
    obtain ⟨hfn, hfrest⟩ := Node.all_cons_iff.1 hfenced
    obtain ⟨hfm, hfmore⟩ := Node.all_cons_iff.1 hfrest
    obtain ⟨c, hcomment⟩ := exists_comment_of_sameLine hsame
    have hgrid' : isGrid (splitFrom {} [] more) = true := (Bool.and_eq_true_iff.1 hgrid).2
    intro j hj
    rcases Node.mem_marksAll_cons hj with hj | ⟨k, hk, rfl⟩
    · exact .inl (holds_separator hrow hcell hn hfn hc hj rfl rfl)
    · rcases Node.mem_marksAll_cons hk with hk | ⟨i, hi, rfl⟩
      · rw [eq_of_mem_marks hcomment hk]
        have hholds : ({ row' with comment := some m } : Row).Holds _ :=
          holds_comment hrow hcell hcomment rfl rfl
        exact .inl (by simpa [Mark.shift, row'] using hholds)
      · have hrows := rowsHold_tail (ih growing_empty hempty hmore hfmore hgrid' i hi)
          (ink_closeRowComment n hrow hcell hm.self hcomment)
        simpa [Mark.shift, ink_empty] using hrows
  | case7 row cell n hc hsep hends row' m more hsame ih =>
    obtain ⟨hn, hrest⟩ := Node.all_cons_iff.1 hsound
    obtain ⟨hfn, hfrest⟩ := Node.all_cons_iff.1 hfenced
    have hgrid' : isGrid (splitFrom {} [] (m :: more)) = true := (Bool.and_eq_true_iff.1 hgrid).2
    intro j hj
    rcases Node.mem_marksAll_cons hj with hj | ⟨k, hk, rfl⟩
    · exact .inl (holds_separator hrow hcell hn hfn hc hj rfl rfl)
    · exact rowsHold_tail (ih growing_empty hempty hrest hfrest hgrid' k hk)
        (ink_closeRow n hrow hcell)
  | case8 row cell n hc hsep hends row' ih =>
    obtain ⟨hn, -⟩ := Node.all_cons_iff.1 hsound
    obtain ⟨hfn, -⟩ := Node.all_cons_iff.1 hfenced
    intro j hj
    rcases Node.mem_marksAll_cons hj with hj | ⟨k, hk, rfl⟩
    · exact .inl (holds_separator hrow hcell hn hfn hc hj rfl rfl)
    · cases hk
  | case9 row cell n rest hc hsep hends hrule ih =>
    obtain ⟨hn, hrest⟩ := Node.all_cons_iff.1 hsound
    obtain ⟨hfn, hfrest⟩ := Node.all_cons_iff.1 hfenced
    obtain ⟨hcells, htrim⟩ := fresh_iff (Bool.and_eq_true_iff.1 hrule).2
    have hline := (level_of_isGrid _ _ _ hgrid).rules n (by simp)
    intro m hm
    rcases Node.mem_marksAll_cons hm with hm | ⟨k, hk, rfl⟩
    · simp [Node.marks_of_line hn hfn hc hline] at hm
    · have hrows := ih ⟨hrow.even, hrow.unclosed, hrow.uncommented⟩ hempty hrest hfrest hgrid k hk
      simpa [Mark.shift, ink, commentInk, hrow.unclosed, hrow.uncommented, hcells, weave,
        Node.ink_rawAll_of_trim_eq_nil hcell htrim] using hrows
  | case10 row cell n rest hc hsep hends hrule ih =>
    obtain ⟨hn, hrest⟩ := Node.all_cons_iff.1 hsound
    obtain ⟨hfn, hfrest⟩ := Node.all_cons_iff.1 hfenced
    have hflat := (level_of_isGrid _ _ _ hgrid).cell n (by simp)
    intro m hm
    rcases Node.mem_marksAll_cons hm with hm | ⟨k, hk, rfl⟩
    · simp [Node.marks_of_flat hn hfn hflat] at hm
    · have hcell' := Node.all_append_iff.2 ⟨hcell, Node.all_cons hn hempty⟩
      have hrows := ih hrow hcell' hrest hfrest hgrid k hk
      simpa [Mark.shift] using hrows

end Row

/-! ## lines and their comments -/

namespace Grid

variable (grid : Grid) {row : Row} (hsound : ∀ c ∈ row.cells, All Sound c)
  (hline : ∀ c ∈ row.cells, (Cell.text c).2 = true)

include hsound hline

/-- A row separator ends what is written of its row. -/
theorem exists_body_eq (hsep : row.rowSeparator ≠ []) :
    ∃ s, grid.body row = s ++ row.rowSeparator ∧ ink s = ink (weave row.cells row.separators) := by
  obtain ⟨s, hs⟩ : ∃ s, grid.body row = s ++ row.rowSeparator := by
    unfold body
    dsimp only
    generalize (if row.separators.isEmpty && row.cells.length == 1 && row.cells.all List.isEmpty then []
      else grid.cells (!row.rowSeparator.isEmpty) 0 row.cells row.separators) = line
    rw [if_neg (by simpa using hsep)]
    split
    · exact ⟨[], rfl⟩
    · exact ⟨_, rfl⟩
  have hink := ink_body grid hsound hline
  rw [hs, Bytes.ink_append] at hink
  exact ⟨s, hs, List.append_cancel_right hink⟩

/-- The line of a row shows the comments of the row. -/
theorem exists_line_eq {m : Mark} (h : row.Holds m) :
    ∃ left right, grid.line row = left ++ Byte.percent :: (m.comment.content ++ right) ∧
      ink (rawAll row.rules) ++ ink left = m.before ∧ (BreaksLine right ∨ right = []) := by
  rcases h with ⟨hcomment, hbefore⟩ | ⟨s, t, hsep, hbreaks, hbefore⟩
  · have hspace : ∀ b : UInt8, (b == Byte.space) = true → isBlank b = true := by
      intro b hb
      simp [isBlank, hb]
    have hink := ink_spaced (Text.stripEnd (· == Byte.space) (grid.body row)) []
    rw [List.append_nil, Text.ink_stripEnd hspace, ink_body grid hsound hline, Bytes.ink_nil,
      List.append_nil] at hink
    have heq : grid.line row = (if (Text.stripEnd (· == Byte.space) (grid.body row)).isEmpty then []
        else Text.stripEnd (· == Byte.space) (grid.body row) ++ [Byte.space]) ++
          Byte.percent :: (m.comment.content ++ []) := by
      rw [line, hcomment, List.append_nil]
    exact ⟨_, [], heq, by rw [hink, hbefore, Row.frontInk, List.append_assoc], .inr rfl⟩
  · obtain ⟨w, hbody, hink⟩ := exists_body_eq grid hsound hline (by simp [hsep])
    rw [hsep, ← List.append_assoc, List.append_cons, ← List.append_assoc] at hbody
    have hleft : ink (rawAll row.rules) ++ ink (w ++ s) = m.before := by
      rw [Bytes.ink_append, hink, hbefore, Row.frontInk, List.append_assoc]
    unfold line
    split
    · exact ⟨w ++ s, t, by simp [hbody], hleft, .inl hbreaks⟩
    · -- The comment of the row stands behind the row separator, on a later line.
      obtain ⟨t', hstrip, hbreaks'⟩ := hbreaks.exists_stripEnd (· == Byte.space) (by decide)
        (w ++ s ++ [Byte.percent] ++ m.comment.content)
      dsimp only
      rw [hbody, Text.stripPadding, hstrip, if_neg (by simp)]
      exact ⟨w ++ s, t' ++ _, by simp; rfl, hleft, .inl (hbreaks'.append _)⟩

end Grid

end Table

namespace Print

open Table (Grid Row RowsHold)

/-- The text of a comment, behind white space, guards the comment if the line ends behind it. -/
theorem guards_commentText {left : Bytes} (hleft : ink left = []) (c : Comment) :
    Guards true [⟨[], c⟩] [.text (left ++ commentText c)] := by
  intro z hz m hm
  cases List.mem_singleton.1 hm
  refine ⟨[], left, c.content.trimEnd isLineBlank, [], z, ?_, hleft, .inr rfl, .inr ⟨rfl, hz rfl⟩⟩
  rw [commentText, List.append_nil]
  rfl

/-- The atoms of lines, each on a line of its own. -/
def lineAtoms (lines : List Bytes) : List Atom :=
  lines.flatMap fun l => [.hardLine, .text l]

theorem atomsAll_lineDocs (lines : List Bytes) :
    Doc.atomsAll (lines.flatMap fun l => [.hardLine, .text l]) = lineAtoms lines := by
  induction lines with
  | nil => rfl
  | cons l lines ih => simp [lineAtoms, Doc.atomsAll, Doc.atoms, ih]

theorem inkAll_lineAtoms (lines : List Bytes) : Atom.inkAll (lineAtoms lines) = ink lines.flatten := by
  rw [← atomsAll_lineDocs, Doc.inkAll_atomsAll, inkAll_lineDocs]

theorem endsLine_lineAtoms (lines : List Bytes) {z : List Atom} (hz : Atom.endsLine true z = true) :
    Atom.endsLine true (lineAtoms lines ++ z) = true := by
  cases lines with
  | nil => exact hz
  | cons l lines => rfl

/-- The lines of a row show the comments of the row. -/
theorem shown_lines (grid : Grid) {row : Row} (hsound : ∀ c ∈ row.cells, All Sound c)
    (hline : ∀ c ∈ row.cells, (Table.Cell.text c).2 = true) {m : Mark} (h : row.Holds m)
    {z : List Atom} (hz : Atom.endsLine true z = true) :
    m.Shown (lineAtoms (grid.lines row) ++ z) := by
  obtain ⟨left, right, hleft, hink, hright⟩ := Grid.exists_line_eq grid hsound hline h
  have hlines : grid.lines row = row.rules.map Node.raw ++ [grid.line row] := by
    rw [Grid.lines, if_neg (by simp [hleft])]
  have hrules : ink (row.rules.map Node.raw).flatten = ink (rawAll row.rules) := by
    induction row.rules with
    | nil => rfl
    | cons n ns ih => simp [ih]
  refine ⟨lineAtoms (row.rules.map Node.raw) ++ [.hardLine], left, m.comment.content, right, z, ?_, ?_,
    .inl rfl, hright.imp_right fun hempty => ⟨hempty, hz⟩⟩
  · simp [hlines, lineAtoms, hleft]
  · rw [Atom.inkAll_append, inkAll_lineAtoms, hrules, ← hink]
    simp [Atom.inkAll]

/-- The lines of rows show the comments of the rows. -/
theorem shown_rows (grid : Grid) {rows : List Row} (hrows : Table.Writable rows) {m : Mark}
    (h : RowsHold m rows) {z : List Atom} (hz : Atom.endsLine true z = true) :
    m.Shown (lineAtoms (rows.flatMap grid.lines) ++ z) := by
  induction rows generalizing m with
  | nil => cases h
  | cons row rows ih =>
    have hsound := fun c hc => (hrows row (by simp) c hc).1
    have hline := fun c hc => (hrows row (by simp) c hc).2
    have hsplit : lineAtoms ((row :: rows).flatMap grid.lines) ++ z =
        lineAtoms (grid.lines row) ++ (lineAtoms (rows.flatMap grid.lines) ++ z) := by
      simp [lineAtoms]
    rw [hsplit]
    rcases h with h | ⟨k, rfl, h⟩
    · exact shown_lines grid hsound hline h (endsLine_lineAtoms _ hz)
    · have hshown := ih (fun row' hrow' => hrows row' (by simp [hrow'])) h
      rw [← Grid.ink_lines grid hsound hline, ← inkAll_lineAtoms]
      exact hshown.shift _

theorem shown_format (measure : Bytes → Nat) (columns : List Table.Column) {rows : List Row}
    (hrows : Table.Writable rows) {m : Mark} (h : RowsHold m rows) {z : List Atom}
    (hz : Atom.endsLine true z = true) : m.Shown (lineAtoms (Table.format measure columns rows) ++ z) :=
  shown_rows _ hrows h hz

/-- The comment at the head of a table is all that its row holds. -/
theorem eq_of_tableHead? {rows : List Row} {c : Comment} (h : tableHead? rows = some c) :
    ∃ row rest, rows = row :: rest ∧ row.ink = ink (commentText c) ∧
      ∀ m, row.Holds m → m = ⟨[], c⟩ := by
  unfold tableHead? at h
  split at h
  · next row rest =>
    split at h
    · next hrow =>
      obtain ⟨hc, -⟩ := Option.filter_eq_some_iff.1 h
      refine ⟨row, rest, rfl, by rw [ink_of_isComment hrow hc, ink_commentText], fun m hm => ?_⟩
      simp only [Row.isComment, Bool.and_eq_true, List.isEmpty_iff] at hrow
      obtain ⟨⟨⟨⟨⟨-, hrules⟩, hseps⟩, hend⟩, hone⟩, hblank⟩ := hrow
      have hweave : Table.weave row.cells row.separators = [] :=
        Grid.weave_of_blank (by simp [hseps, hone, hblank])
      rcases hm with ⟨hcomment, hbefore⟩ | ⟨s, t, hsep, -⟩
      · have hbefore : m.before = [] := by simp [hbefore, Row.frontInk, hrules, hweave, hend]
        cases m
        cases hbefore
        rw [hc] at hcomment
        cases hcomment
        rfl
      · simp [hend] at hsep
    · cases h
  · cases h

/-- **A table guards the comments of its content**, if the line ends behind it. -/
theorem guards_tableDoc (measure : Bytes → Nat) (args : List Node) {content : List Node}
    (hsound : All Sound content) (hfenced : All Fenced content)
    (hgrid : Table.isGrid (Row.split content) = true) :
    Guards true (marksAll content) (tableDoc measure args content).atoms := by
  have hwritable := Table.writable_split hsound hgrid
  intro z hz m hm
  have hholds : RowsHold m (Row.split content) :=
    Row.rowsHold_splitFrom {} [] content Row.growing_empty (Node.all_nil _) hsound hfenced hgrid m hm
  unfold tableDoc
  dsimp only
  split
  · next c hhead =>
    obtain ⟨row, rest, hrows, hink, hhold⟩ := eq_of_tableHead? hhead
    simp only [hrows] at hwritable hholds ⊢
    simp only [Doc.atoms, Doc.atomsAll, List.append_nil, atomsAll_lineDocs, List.tail_cons,
      List.append_assoc]
    rcases hholds with h | ⟨k, rfl, h⟩
    · rw [hhold m h]
      exact guards_commentText (by simpa using ink_shift c.leading []) c _
        (fun _ => endsLine_lineAtoms _ (hz rfl)) _ (by simp)
    · have hrest : Table.Writable rest := fun row' hrow' => hwritable row' (by simp [hrow'])
      have hfront : row.ink =
          Atom.inkAll [.text ((if c.leading.isEmpty then [] else [Byte.space]) ++ commentText c)] := by
        rw [Atom.inkAll, ink_shift, hink]
        simp [Atom.inkAll]
      rw [hfront]
      exact (shown_format measure _ hrest h (hz rfl)).shift _
  · simp only [Doc.atoms, Doc.atomsAll, List.append_nil, atomsAll_lineDocs, List.nil_append]
    exact shown_format measure _ hwritable hholds (hz rfl)

end Print

end TexTidy
