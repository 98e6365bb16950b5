import TexTidy.Proofs.Sound
import TexTidy.Table.Align

/-!
# TexTidy.Proofs.TableInk

A table loses nothing. Rows are split off a sequence of nodes and written as lines; both keep the ink:

* `ink_split`: the rows of a sequence, read from rules to comments, have the ink of the sequence;
* `ink_lines`: the lines of a row have the ink of the row, if its cells can be written on one line;
* `ink_format`: hence the lines of a grid have the ink of the sequence they come from.

While a row is under construction it has as many separators as cells. That is the invariant of the
splitting, and what makes `weave` grow at its end.
-/

namespace TexTidy.Table

open Bytes (ink)
open Node (All Sound rawAll trim)

/-! ## the ink of a row -/

/-- Cells with the separators between them, in order. -/
def weave : List Cell → List Bytes → Bytes
  | [], _ => []
  | c :: cs, [] => rawAll c ++ weave cs []
  | c :: cs, sep :: seps => rawAll c ++ sep ++ weave cs seps

/-- A cell after the last separator. -/
theorem weave_concat {cells : List Cell} {seps : List Bytes} (h : cells.length = seps.length)
    (c : Cell) : weave (cells ++ [c]) seps = weave cells seps ++ rawAll c := by
  induction cells generalizing seps with
  | nil =>
    rw [List.length_eq_zero_iff.1 h.symm]
    simp [weave]
  | cons d cells ih =>
    cases seps with
    | nil => cases h
    | cons sep seps => simp [weave, ih (Nat.succ.inj h)]

/-- A cell and a separator after the last separator. -/
theorem weave_concat_concat {cells : List Cell} {seps : List Bytes}
    (h : cells.length = seps.length) (c : Cell) (sep : Bytes) :
    weave (cells ++ [c]) (seps ++ [sep]) = weave cells seps ++ rawAll c ++ sep := by
  induction cells generalizing seps with
  | nil =>
    rw [List.length_eq_zero_iff.1 h.symm]
    simp [weave]
  | cons d cells ih =>
    cases seps with
    | nil => cases h
    | cons s seps => simp [weave, ih (Nat.succ.inj h)]

namespace Row

/-- The ink of the comment of a row. -/
def commentInk (row : Row) : Bytes :=
  (row.comment.bind Node.comment?).elim [] fun c => ink (Byte.percent :: c.content)

/-- The ink of a row, from its rules to its comment. -/
def ink (row : Row) : Bytes :=
  Bytes.ink (rawAll row.rules) ++ Bytes.ink (weave row.cells row.separators) ++
    Bytes.ink row.rowSeparator ++ row.commentInk

/-- A row under construction: each cell has its separator, and nothing closes the row. -/
structure Growing (row : Row) : Prop where
  even : row.cells.length = row.separators.length
  unclosed : row.rowSeparator = []
  uncommented : row.comment = none

theorem growing_empty : Growing {} :=
  ⟨rfl, rfl, rfl⟩

theorem ink_empty : ink {} = [] := rfl

/-- The last cell adds its ink. -/
theorem ink_addCell {row : Row} {cell : Cell} (hrow : row.Growing) (hcell : All Sound cell) :
    (row.addCell cell).ink = row.ink ++ Bytes.ink (rawAll cell) := by
  simp [ink, addCell, commentInk, hrow.unclosed, hrow.uncommented, weave_concat hrow.even,
    Node.ink_rawAll_trim hcell]

/-- What closes a row adds its ink behind the last cell. -/
theorem ink_close {row : Row} {cell : Cell} (sep : Bytes) (comment : Option Node)
    (hrow : row.Growing) (hcell : All Sound cell) :
    ({ row.addCell cell with rowSeparator := sep, comment := comment } : Row).ink =
      row.ink ++ Bytes.ink (rawAll cell) ++ Bytes.ink sep ++
        commentInk { comment := comment } := by
  simp [ink, addCell, commentInk, hrow.unclosed, hrow.uncommented, weave_concat hrow.even,
    Node.ink_rawAll_trim hcell]

/-- A node that ends a row adds its ink behind the last cell. -/
theorem ink_closeRow {row : Row} {cell : Cell} (n : Node) (hrow : row.Growing)
    (hcell : All Sound cell) :
    ({ row.addCell cell with rowSeparator := n.raw } : Row).ink =
      row.ink ++ Bytes.ink (rawAll cell) ++ Bytes.ink n.raw := by
  simpa [addCell, commentInk, hrow.uncommented] using ink_close n.raw none hrow hcell

/-- A comment at the end of a row adds its ink behind the last cell. -/
theorem ink_closeComment {row : Row} {cell : Cell} {n : Node} {c : Comment} (hrow : row.Growing)
    (hcell : All Sound cell) (hn : n.Sound) (hc : n.comment? = some c) :
    ({ row.addCell cell with comment := some n } : Row).ink =
      row.ink ++ Bytes.ink (rawAll cell) ++ Bytes.ink n.raw := by
  rw [Node.ink_raw_of_comment? hn hc]
  simpa [addCell, hrow.unclosed, commentInk, hc] using ink_close [] (some n) hrow hcell

/-- A node that ends a row and a comment behind it. -/
theorem ink_closeRowComment {row : Row} {cell : Cell} (n : Node) {m : Node} {c : Comment}
    (hrow : row.Growing) (hcell : All Sound cell) (hm : m.Sound) (hc : m.comment? = some c) :
    ({ row.addCell cell with rowSeparator := n.raw, comment := some m } : Row).ink =
      row.ink ++ Bytes.ink (rawAll cell) ++ (Bytes.ink n.raw ++ Bytes.ink m.raw) := by
  rw [Node.ink_raw_of_comment? hm hc]
  simpa [commentInk, hc] using ink_close n.raw (some m) hrow hcell

/-- Only a comment is on the same line as something. -/
theorem exists_comment_of_sameLine {n : Node}
    (h : (n.comment?.map Comment.sameLine).getD false = true) : ∃ c, n.comment? = some c := by
  cases hn : n.comment? with
  | none => simp [hn] at h
  | some c => exact ⟨c, rfl⟩

/-- One more cell and its separator. -/
theorem growing_addSeparator {row : Row} (cell : Cell) (sep : Bytes) (hrow : row.Growing) :
    Growing { row.addCell cell with separators := (row.addCell cell).separators ++ [sep] } :=
  ⟨by simp [addCell, hrow.even], hrow.unclosed, hrow.uncommented⟩

theorem ink_addSeparator {row : Row} {cell : Cell} (sep : Bytes) (hrow : row.Growing)
    (hcell : All Sound cell) :
    ({ row.addCell cell with separators := (row.addCell cell).separators ++ [sep] } : Row).ink =
      row.ink ++ Bytes.ink (rawAll cell) ++ Bytes.ink sep := by
  simp [ink, addCell, commentInk, hrow.unclosed, hrow.uncommented, weave_concat_concat hrow.even,
    Node.ink_rawAll_trim hcell]

/-- A fresh row has met rules only. -/
theorem fresh_iff {row : Row} {cell : Cell} (h : row.isFresh cell = true) :
    row.cells = [] ∧ trim cell = [] := by
  simpa [isFresh] using h

/-! ## splitting -/

theorem raw_columnSeparator? {n : Node} {sep : Bytes} (h : columnSeparator? n = some sep) :
    n.raw = sep := by
  unfold columnSeparator? at h
  split at h
  · split at h
    · cases h
      simp [Node.raw_leaf, Leaf.raw, Leaf.rawPieces]
    · cases h
  · cases h

/-- **Splitting keeps the ink**: the row under construction, its last cell and the nodes that are left
    become rows, and nothing else does. -/
theorem ink_splitFrom (row : Row) (cell : Cell) (ns : List Node) (hrow : row.Growing)
    (hcell : All Sound cell) (hns : All Sound ns) :
    ((splitFrom row cell ns).map ink).flatten =
      row.ink ++ Bytes.ink (rawAll cell) ++ Bytes.ink (rawAll ns) := by
  fun_induction splitFrom row cell ns with
  | case1 row cell hempty =>
    obtain ⟨hfresh, hrules⟩ := Bool.and_eq_true_iff.1 hempty
    obtain ⟨hcells, htrim⟩ := fresh_iff hfresh
    simp [ink, commentInk, hrow.unclosed, hrow.uncommented, hcells, List.isEmpty_iff.1 hrules, weave,
      Node.ink_rawAll_of_trim_eq_nil hcell htrim]
  | case2 row cell hempty =>
    simp [ink_addCell hrow hcell]
  | case3 row cell n rest sep hsep row' ih =>
    obtain ⟨hn, hrest⟩ := Node.all_cons_iff.1 hns
    rw [ih (growing_addSeparator cell sep hrow) (Node.all_nil _) hrest, ink_addSeparator sep hrow hcell]
    simp [raw_columnSeparator? hsep]
  | case4 row cell n rest c hc hsep hinside ih =>
    obtain ⟨hn, hrest⟩ := Node.all_cons_iff.1 hns
    rw [ih hrow (Node.all_append_iff.2 ⟨hcell, Node.all_cons hn (Node.all_nil _)⟩) hrest]
    simp
  | case5 row cell n rest c hc hsep hends ih =>
    obtain ⟨hn, hrest⟩ := Node.all_cons_iff.1 hns
    rw [List.map_cons, List.flatten_cons, ih growing_empty (Node.all_nil _) hrest,
      ink_closeComment hrow hcell hn.self hc]
    simp [ink_empty]
  | case6 row cell n hc hsep hends row' m more hsame ih =>
    obtain ⟨hn, hrest⟩ := Node.all_cons_iff.1 hns
    obtain ⟨hm, hmore⟩ := Node.all_cons_iff.1 hrest
    obtain ⟨c, hcomment⟩ := exists_comment_of_sameLine hsame
    rw [List.map_cons, List.flatten_cons, ih growing_empty (Node.all_nil _) hmore,
      ink_closeRowComment n hrow hcell hm.self hcomment]
    simp [ink_empty]
  | case7 row cell n hc hsep hends row' m more hsame ih =>
    obtain ⟨hn, hrest⟩ := Node.all_cons_iff.1 hns
    rw [List.map_cons, List.flatten_cons, ih growing_empty (Node.all_nil _) hrest,
      ink_closeRow n hrow hcell]
    simp [ink_empty]
  | case8 row cell n hc hsep hends row' ih =>
    rw [List.map_cons, List.flatten_cons, ih growing_empty (Node.all_nil _) (Node.all_nil _),
      ink_closeRow n hrow hcell]
    simp [ink_empty]
  | case9 row cell n rest hc hsep hends hrule ih =>
    obtain ⟨hn, hrest⟩ := Node.all_cons_iff.1 hns
    obtain ⟨hcells, htrim⟩ := fresh_iff (Bool.and_eq_true_iff.1 hrule).2
    rw [ih ⟨hrow.even, hrow.unclosed, hrow.uncommented⟩ (Node.all_nil _) hrest,
      Node.ink_rawAll_of_trim_eq_nil hcell htrim]
    simp [ink, commentInk, hrow.unclosed, hrow.uncommented, hcells, weave]
  | case10 row cell n rest hc hsep hends hrule ih =>
    obtain ⟨hn, hrest⟩ := Node.all_cons_iff.1 hns
    rw [ih hrow (Node.all_append_iff.2 ⟨hcell, Node.all_cons hn (Node.all_nil _)⟩) hrest]
    simp

/-- The rows of a sequence have its ink. -/
theorem ink_split {content : List Node} (h : All Sound content) :
    ((split content).map ink).flatten = Bytes.ink (rawAll content) := by
  rw [split, ink_splitFrom {} [] content growing_empty (Node.all_nil _) h]
  simp [ink_empty]

end Row

namespace Row

/-- All cells of the row are sound. -/
def SoundCells (row : Row) : Prop :=
  ∀ c ∈ row.cells, All Sound c

theorem soundCells_empty : SoundCells {} := by
  intro c hc
  cases hc

theorem soundCells_addCell {row : Row} {cell : Cell} (hrow : row.SoundCells) (hcell : All Sound cell) :
    (row.addCell cell).SoundCells := by
  intro c hc
  rcases List.mem_append.1 hc with hc | hc
  · exact hrow c hc
  · rw [List.mem_singleton.1 hc]
    exact Node.all_trim hcell

/-- Splitting puts sound nodes into sound cells. -/
theorem soundCells_splitFrom (row : Row) (cell : Cell) (ns : List Node) (hrow : row.SoundCells)
    (hcell : All Sound cell) (hns : All Sound ns) : ∀ row' ∈ splitFrom row cell ns, row'.SoundCells := by
  have hempty : All Sound ([] : Cell) := Node.all_nil _
  fun_induction splitFrom row cell ns with
  | case1 => simp
  | case2 row cell => simpa using soundCells_addCell hrow hcell
  | case3 row cell n rest sep hsep row' ih =>
    exact ih (soundCells_addCell hrow hcell) hempty (Node.all_cons_iff.1 hns).2
  | case4 row cell n rest c hc hsep hinside ih =>
    obtain ⟨hn, hrest⟩ := Node.all_cons_iff.1 hns
    exact ih hrow (Node.all_append_iff.2 ⟨hcell, Node.all_cons hn hempty⟩) hrest
  | case5 row cell n rest c hc hsep hends ih =>
    exact List.forall_mem_cons.2 ⟨soundCells_addCell hrow hcell,
      ih soundCells_empty hempty (Node.all_cons_iff.1 hns).2⟩
  | case6 row cell n hc hsep hends row' m more hsame ih =>
    have hmore := (Node.all_cons_iff.1 (Node.all_cons_iff.1 hns).2).2
    exact List.forall_mem_cons.2 ⟨soundCells_addCell hrow hcell, ih soundCells_empty hempty hmore⟩
  | case7 row cell n hc hsep hends row' m more hsame ih =>
    exact List.forall_mem_cons.2 ⟨soundCells_addCell hrow hcell,
      ih soundCells_empty hempty (Node.all_cons_iff.1 hns).2⟩
  | case8 row cell n hc hsep hends row' ih =>
    exact List.forall_mem_cons.2 ⟨soundCells_addCell hrow hcell, ih soundCells_empty hempty hempty⟩
  | case9 row cell n rest hc hsep hends hrule ih =>
    exact ih hrow hempty (Node.all_cons_iff.1 hns).2
  | case10 row cell n rest hc hsep hends hrule ih =>
    obtain ⟨hn, hrest⟩ := Node.all_cons_iff.1 hns
    exact ih hrow (Node.all_append_iff.2 ⟨hcell, Node.all_cons hn hempty⟩) hrest

end Row

/-! ## cells -/

/-- A cell on one line has the ink of its nodes. -/
theorem Cell.ink_joined? {cell : Cell} {text : Bytes} (h : All Sound cell)
    (hjoined : Cell.joined? cell = some text) : ink text = ink (rawAll cell) := by
  induction cell generalizing text with
  | nil =>
    cases hjoined
    rfl
  | cons n ns ih =>
    obtain ⟨hn, hns⟩ := Node.all_cons_iff.1 h
    rw [Cell.joined?] at hjoined
    split at hjoined
    · cases hjoined
    · obtain ⟨tail, htail, rfl⟩ := Option.map_eq_some_iff.1 hjoined
      have hhead : ink (if n.isPlainSpace then [Byte.space] else n.raw) = ink n.raw := by
        split
        · next hplain =>
          rw [Node.ink_raw_of_isSpace hn.self (Node.isSpace_of_isPlainSpace hplain)]
          rfl
        · rfl
      rw [Bytes.ink_append, hhead, ih hns htail, Node.rawAll_cons, Bytes.ink_append]

theorem Cell.ink_text {cell : Cell} (h : All Sound cell) (hline : cell.text.2 = true) :
    ink cell.text.1 = ink (rawAll cell) := by
  unfold Cell.text at *
  split at hline
  · next text htext => exact Cell.ink_joined? h htext
  · cases hline

/-! ## lines -/

namespace Grid

variable (grid : Grid)

@[simp] theorem ink_padding (width : Nat) (text : Bytes) : ink (grid.padding width text) = [] :=
  Bytes.ink_spaces _

@[simp] theorem ink_cell (i : Nat) (followed : Bool) (text : Bytes) :
    ink (grid.cell i followed text) = ink text := by
  unfold cell
  dsimp only
  split
  · simp
  · split <;> simp

@[simp] theorem ink_separator (i : Nat) (sep : Bytes) : ink (grid.separator i sep) = ink sep := by
  simp [separator]

theorem ink_cells (closed : Bool) (i : Nat) {cells : List Cell} (seps : List Bytes)
    (hsound : ∀ c ∈ cells, All Sound c) (hline : ∀ c ∈ cells, (Cell.text c).2 = true) :
    ink (grid.cells closed i cells seps) = ink (weave cells seps) := by
  induction cells generalizing i seps with
  | nil => cases seps <;> rfl
  | cons c cs ih =>
    have htext := Cell.ink_text (hsound c (by simp)) (hline c (by simp))
    have hrest := fun i seps => ih i seps (fun c hc => hsound c (by simp [hc]))
      fun c hc => hline c (by simp [hc])
    cases seps <;> simp [cells, weave, htext, hrest]

/-- A row with nothing in its only cell has nothing to weave. -/
theorem weave_of_blank {row : Row}
    (h : (row.separators.isEmpty && row.cells.length == 1 && row.cells.all List.isEmpty) = true) :
    weave row.cells row.separators = [] := by
  simp only [Bool.and_eq_true, beq_iff_eq, List.isEmpty_iff, List.all_eq_true] at h
  obtain ⟨⟨hseps, hone⟩, hempty⟩ := h
  obtain ⟨c, hc⟩ := List.length_eq_one_iff.1 hone
  rw [hseps, hc, hempty c (by simp [hc])]
  rfl

/-- A space between two texts is no ink, and an empty text needs none. -/
theorem ink_spaced (s t : Bytes) :
    ink ((if s.isEmpty then [] else s ++ [Byte.space]) ++ t) = ink s ++ ink t := by
  split
  · next hs => simp [List.isEmpty_iff.1 hs]
  · simp

theorem ink_body {row : Row} (hsound : ∀ c ∈ row.cells, All Sound c)
    (hline : ∀ c ∈ row.cells, (Cell.text c).2 = true) :
    ink (grid.body row) = ink (weave row.cells row.separators) ++ ink row.rowSeparator := by
  have hcells : ink (if row.separators.isEmpty && row.cells.length == 1 &&
      row.cells.all List.isEmpty then [] else
      grid.cells (!row.rowSeparator.isEmpty) 0 row.cells row.separators) =
      ink (weave row.cells row.separators) := by
    split
    · next hblank => rw [weave_of_blank hblank]
    · exact ink_cells grid _ 0 row.separators hsound hline
  unfold body
  dsimp only
  generalize (if row.separators.isEmpty && row.cells.length == 1 && row.cells.all List.isEmpty then []
    else grid.cells (!row.rowSeparator.isEmpty) 0 row.cells row.separators) = line at hcells ⊢
  rw [← hcells]
  split
  · next hsep => simp [List.isEmpty_iff.1 hsep]
  · split
    · next hempty => simp [List.isEmpty_iff.1 hempty]
    · simp

theorem ink_line {row : Row} (hsound : ∀ c ∈ row.cells, All Sound c)
    (hline : ∀ c ∈ row.cells, (Cell.text c).2 = true) :
    ink (grid.line row) =
      ink (weave row.cells row.separators) ++ ink row.rowSeparator ++ row.commentInk := by
  have hspace : ∀ b : UInt8, (b == Byte.space) = true → isBlank b = true := by
    intro b hb
    simp [isBlank, hb]
  unfold line Row.commentInk
  split
  · next hnone => simp [hnone, ink_body grid hsound hline]
  · next c hsome =>
    dsimp only
    rw [ink_spaced, Text.ink_stripEnd hspace, ink_body grid hsound hline, hsome]
    rfl

/-- **The lines of a row have the ink of the row.** -/
theorem ink_lines {row : Row} (hsound : ∀ c ∈ row.cells, All Sound c)
    (hline : ∀ c ∈ row.cells, (Cell.text c).2 = true) :
    ink (grid.lines row).flatten = row.ink := by
  have hbody := ink_line grid hsound hline
  have hrules : ink (row.rules.map Node.raw).flatten = ink (rawAll row.rules) := by
    induction row.rules with
    | nil => rfl
    | cons n ns ih => simp [ih]
  unfold lines Row.ink
  dsimp only
  rw [List.flatten_append, Bytes.ink_append, hrules, List.append_assoc, List.append_assoc,
    ← List.append_assoc (ink (weave _ _)), ← hbody]
  split
  · next hempty =>
    rw [List.isEmpty_iff.1 (Bool.and_eq_true_iff.1 hempty).1]
    rfl
  · simp

end Grid

/-! ## the whole table -/

/-- The cells of all rows are sound, and each can be written on one line. -/
def Writable (rows : List Row) : Prop :=
  ∀ row ∈ rows, ∀ c ∈ row.cells, All Sound c ∧ (Cell.text c).2 = true

theorem ink_format (measure : Bytes → Nat) (columns : List Column) {rows : List Row}
    (h : Writable rows) :
    ink (format measure columns rows).flatten = (rows.map Row.ink).flatten := by
  unfold format
  generalize Grid.mk measure columns _ _ = grid
  induction rows with
  | nil => rfl
  | cons row rows ih =>
    have hrow := Grid.ink_lines grid (fun c hc => (h row (by simp) c hc).1)
      fun c hc => (h row (by simp) c hc).2
    simp [hrow, ih fun row' hrow' => h row' (by simp [hrow'])]

/-- The rows of a grid of sound nodes can be written. -/
theorem writable_split {content : List Node} (h : All Sound content)
    (hgrid : isGrid (Row.split content) = true) : Writable (Row.split content) := by
  intro row hrow c hc
  refine ⟨Row.soundCells_splitFrom {} [] content Row.soundCells_empty (Node.all_nil _) h row hrow c hc,
    ?_⟩
  have hcells := (Bool.and_eq_true_iff.1 (List.all_eq_true.1 hgrid row hrow)).1
  exact List.all_eq_true.1 hcells c hc

end TexTidy.Table
