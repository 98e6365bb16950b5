import TexTidy.Proofs.DisplayWidth
import TexTidy.Proofs.Partition

/-!
# TexTidy.Proofs.Alignment

Separators of one index start at one column. The line of a row is written in pieces: the texts of cells, separators,
and blanks that fill up both. A separator starts where the widths of the pieces before it end, and this is
`Grid.column`, which does not depend on the row.

* No text is wider than the place that is kept for it (`within_foldl`), so that blanks fill the place exactly.
* Hence every cell moves the column by the width of its place, and every separator by that of its own
  (`starts_front`).
* A row with separators has one line, and this line begins with the pieces up to the last separator
  (`exists_line_eq_front`). Blanks that are stripped in front of a comment stand behind it.

All that is asked of the measure is that `n` spaces are `n` columns wide.
-/

namespace TexTidy

/-! ## spaces -/

namespace Text

theorem Cluster.spread_spaces {x : Context} (hx : x.last = .other) (w n : Nat) :
    spread x w (List.replicate n ' ') = w + n := by
  induction n generalizing x w with
  | zero => rfl
  | succ n ih =>
    have hclass : classOf ' ' = .other := by decide +kernel
    have hjoins : x.joins .other = false := by simp [Context.joins, hx]
    have hwidth : charWidth ' ' = 1 := by decide
    rw [List.replicate_succ, spread, hclass, hjoins, hwidth, if_neg Bool.false_ne_true, ih rfl]
    omega

theorem decode_spaces (n : Nat) : Utf8.decode (Bytes.spaces n) = List.replicate n ' ' := by
  induction n with
  | zero => simp [Bytes.spaces, Utf8.decode, Utf8.pieces]
  | succ n ih =>
    have hone : Utf8.decode [Byte.space] = [' '] := by decide +kernel
    rw [Bytes.spaces, List.replicate_succ', ← Bytes.spaces, Utf8.decode_append _ (by decide), ih, hone,
      ← List.replicate_succ']

/-- Spaces are as wide as they are many. -/
theorem displayWidth_spaces (n : Nat) : displayWidth (Bytes.spaces n) = n := by
  have hwidth : displayWidth (Bytes.spaces n) = Cluster.width (List.replicate n ' ') := by
    rw [displayWidth, decode_spaces, Cluster.width]
  rw [hwidth]
  cases n with
  | zero => rfl
  | succ n =>
    have hclass : Cluster.classOf ' ' = .other := by decide +kernel
    have hone : charWidth ' ' = 1 := by decide
    rw [List.replicate_succ, Cluster.width_cons, Cluster.spread_spaces (by rw [hclass]; rfl), hone, Nat.add_comm]

end Text

namespace Table

/-! ## places for cells and separators -/

/-- Each width has one at its index that is not smaller. -/
def Within (ws vs : List Nat) : Prop :=
  ∀ (i w : Nat), ws[i]? = some w → ∃ v, vs[i]? = some v ∧ w ≤ v

namespace Within

variable {us vs ws : List Nat}

theorem refl (ws : List Nat) : Within ws ws :=
  fun _ w h => ⟨w, h, Nat.le_refl w⟩

theorem trans (h : Within us vs) (h' : Within vs ws) : Within us ws := by
  intro i u hu
  obtain ⟨v, hv, huv⟩ := h i u hu
  obtain ⟨w, hw, hvw⟩ := h' i v hv
  exact ⟨w, hw, Nat.le_trans huv hvw⟩

/-- The first width has its place, and so have the others one place further on. -/
theorem cons {w : Nat} {i : Nat} (h : Within (w :: ws) (vs.drop i)) :
    (∃ v, vs[i]? = some v ∧ w ≤ v) ∧ Within ws (vs.drop (i + 1)) := by
  refine ⟨?_, fun j u hu => ?_⟩
  · simpa using h 0 w rfl
  · obtain ⟨v, hv, hle⟩ := h (j + 1) u (by simpa using hu)
    refine ⟨v, ?_, hle⟩
    rw [List.getElem?_drop] at hv ⊢
    rw [← hv]
    congr 1
    omega

end Within

theorem within_maxEach (as bs : List Nat) : Within as (maxEach as bs) ∧ Within bs (maxEach as bs) := by
  fun_induction maxEach as bs with
  | case1 bs => exact ⟨by simp [Within], .refl bs⟩
  | case2 as => exact ⟨.refl as, by simp [Within]⟩
  | case3 a as b bs ih =>
    refine ⟨fun i w hw => ?_, fun i w hw => ?_⟩
    · cases i with
      | zero =>
        cases hw
        exact ⟨max a b, rfl, Nat.le_max_left a b⟩
      | succ i => simpa using ih.1 i w (by simpa using hw)
    · cases i with
      | zero =>
        cases hw
        exact ⟨max a b, rfl, Nat.le_max_right a b⟩
      | succ i => simpa using ih.2 i w (by simpa using hw)

/-- The greatest widths of all rows leave room for those of each row. -/
theorem within_foldl (f : Row → List Nat) (rows : List Row) (ws : List Nat) :
    Within ws (rows.foldl (fun ws row => maxEach ws (f row)) ws) ∧
      ∀ row ∈ rows, Within (f row) (rows.foldl (fun ws row => maxEach ws (f row)) ws) := by
  induction rows generalizing ws with
  | nil => exact ⟨.refl ws, by simp⟩
  | cons row rows ih =>
    obtain ⟨hws, hrows⟩ := ih (maxEach ws (f row))
    obtain ⟨hleft, hright⟩ := within_maxEach ws (f row)
    exact ⟨hleft.trans hws, List.forall_mem_cons.2 ⟨hright.trans hws, hrows⟩⟩

/-- What the rows of a table have in common. -/
def gridOf (measure : Bytes → Nat) (columns : List Column) (rows : List Row) : Grid :=
  ⟨measure, columns, widestCells measure rows, widestSeparators measure rows⟩

/-! ## pieces of a line -/

/-- What a line is written from. -/
inductive Piece where
  | blanks (count : Nat)
  /-- The text of a cell. -/
  | text (content : Bytes)
  | separator (content : Bytes)

namespace Piece

/-- What is written for a piece. -/
def raw : Piece → Bytes
  | .blanks n => Bytes.spaces n
  | .text s => s
  | .separator s => s

def isBlanks : Piece → Bool
  | .blanks _ => true
  | _ => false

def isSeparator : Piece → Bool
  | .separator _ => true
  | _ => false

/-- What is written for several pieces. -/
def rawAll (ps : List Piece) : Bytes :=
  ps.flatMap raw

/-- The widths of several pieces, added up. -/
def widthAll (measure : Bytes → Nat) : List Piece → Nat
  | [] => 0
  | p :: ps => measure p.raw + widthAll measure ps

/-- The columns at which the separators among the pieces start, if the first piece starts at column `k`. -/
def starts (measure : Bytes → Nat) (k : Nat) : List Piece → List Nat
  | [] => []
  | p :: ps => (if p.isSeparator then [k] else []) ++ starts measure (k + measure p.raw) ps

@[simp] theorem rawAll_nil : rawAll [] = [] := rfl

@[simp] theorem rawAll_cons (p : Piece) (ps : List Piece) : rawAll (p :: ps) = p.raw ++ rawAll ps := rfl

@[simp] theorem rawAll_append (ps qs : List Piece) : rawAll (ps ++ qs) = rawAll ps ++ rawAll qs :=
  List.flatMap_append

variable {measure : Bytes → Nat}

theorem starts_append (k : Nat) (ps qs : List Piece) :
    starts measure k (ps ++ qs) = starts measure k ps ++ starts measure (k + widthAll measure ps) qs := by
  induction ps generalizing k with
  | nil => rfl
  | cons p ps ih => simp [starts, widthAll, ih, Nat.add_assoc]

end Piece

/-- The sum of widths. -/
def total : List Nat → Nat
  | [] => 0
  | w :: ws => w + total ws

theorem total_take_succ {ws : List Nat} {i w : Nat} (h : ws[i]? = some w) :
    total (ws.take (i + 1)) = total (ws.take i) + w := by
  induction ws generalizing i with
  | nil => simp at h
  | cons v ws ih =>
    cases i with
    | zero =>
      cases h
      simp [total]
    | succ i =>
      simp only [List.take_succ_cons, total, ih (by simpa using h)]
      omega

namespace Grid

open Piece (rawAll widthAll starts)

variable (grid : Grid)

/-- Where the separator with index `i` starts: behind the cells up to its own and the separators before it, with a
    space on either side of a separator. -/
def column (i : Nat) : Nat :=
  total (grid.cellWidths.take (i + 1)) + total ((grid.gapWidths.take i).map (· + 2)) + 1

/-- The pieces of a cell that something follows. -/
def cellPieces (i : Nat) (text : Bytes) : List Piece :=
  let pad := Piece.blanks (grid.cellWidths.getD i 0 - grid.measure text)
  if grid.isRight i then [pad, .text text] else [.text text, pad]

/-- The pieces of a row from index `i` up to its last separator, where `lead` stands behind the separator before. -/
def front (lead : List Piece) : Nat → List Cell → List Bytes → List Piece
  | i, c :: cs, sep :: seps =>
    lead ++ grid.cellPieces i c.text.1 ++ [.blanks 1, .separator sep] ++
      front [.blanks (grid.gapWidths.getD i 0 - grid.measure sep), .blanks 1] (i + 1) cs seps
  | _, _, _ => []

variable {grid}

/-- Blanks fill the place of a cell. -/
theorem widthAll_cellPieces (hspaces : ∀ n, grid.measure (Bytes.spaces n) = n) {i w : Nat} {text : Bytes}
    (hplace : grid.cellWidths[i]? = some w) (hle : grid.measure text ≤ w) :
    widthAll grid.measure (grid.cellPieces i text) = w := by
  have hget : grid.cellWidths.getD i 0 = w := by simp [List.getD_eq_getElem?_getD, hplace]
  unfold cellPieces
  split <;> simp only [widthAll, Piece.raw, hspaces, hget] <;> omega

theorem starts_cellPieces (k i : Nat) (text : Bytes) : starts grid.measure k (grid.cellPieces i text) = [] := by
  unfold cellPieces
  split <;> rfl

/-- **Every separator starts at the column of its index**, if what stands before the first one does. -/
theorem starts_front (hspaces : ∀ n, grid.measure (Bytes.spaces n) = n) {seps : List Bytes} {cells : List Cell}
    {lead : List Piece} {i k : Nat} (hlength : seps.length ≤ cells.length)
    (hcells : Within (cells.map fun c => grid.measure c.text.1) (grid.cellWidths.drop i))
    (hseps : Within (seps.map grid.measure) (grid.gapWidths.drop i)) (hlead : starts grid.measure k lead = [])
    (hk : k + widthAll grid.measure lead =
      total (grid.cellWidths.take i) + total ((grid.gapWidths.take i).map (· + 2))) :
    starts grid.measure k (grid.front lead i cells seps) =
      (List.range seps.length).map fun j => grid.column (i + j) := by
  induction seps generalizing cells lead i k with
  | nil => cases cells <;> rfl
  | cons sep seps ih =>
    cases cells with
    | nil => simp at hlength
    | cons c cells =>
      obtain ⟨⟨w, hw, htext⟩, hcells⟩ := hcells.cons
      obtain ⟨⟨g, hg, hsep⟩, hseps⟩ := hseps.cons
      have hwidth := widthAll_cellPieces hspaces hw htext
      have hget : grid.gapWidths.getD i 0 = g := by simp [List.getD_eq_getElem?_getD, hg]
      have hcolumn : k + widthAll grid.measure lead + w + 1 = grid.column i := by
        rw [hk, column, total_take_succ hw]
        omega
      have hgap : (grid.gapWidths.map (· + 2))[i]? = some (g + 2) := by simp [hg]
      have hnext : grid.column i + grid.measure sep +
            widthAll grid.measure [.blanks (g - grid.measure sep), .blanks 1] =
          total (grid.cellWidths.take (i + 1)) + total ((grid.gapWidths.take (i + 1)).map (· + 2)) := by
        rw [List.map_take, total_take_succ hgap, column, ← List.map_take]
        simp only [widthAll, Piece.raw, hspaces]
        omega
      have hhead : starts grid.measure (k + widthAll grid.measure lead + w) [.blanks 1, .separator sep] =
          [grid.column i] := by
        simp [starts, Piece.isSeparator, Piece.raw, hspaces, hcolumn]
      have hpast : k + widthAll grid.measure lead + w + widthAll grid.measure [.blanks 1, .separator sep] =
          grid.column i + grid.measure sep := by
        simp only [widthAll, Piece.raw, hspaces, ← hcolumn]
        omega
      rw [front, List.append_assoc, List.append_assoc, Piece.starts_append, Piece.starts_append, Piece.starts_append,
        hlead, starts_cellPieces, hwidth, hhead, hpast, hget, ih (by simpa using hlength) hcells hseps rfl hnext,
        List.length_cons, List.range_succ_eq_map]
      simp [Nat.add_assoc, Nat.add_comm 1]

/-! ## lines -/

theorem rawAll_cellPieces (grid : Grid) (i : Nat) (text : Bytes) :
    rawAll (grid.cellPieces i text) = grid.cell i true text := by
  unfold cellPieces cell padding
  dsimp only
  split <;> simp [Piece.raw]

/-- The cells of a row are written from the pieces up to the last separator, and something behind them. -/
theorem exists_cells_eq (grid : Grid) (closed : Bool) (lead : List Piece) (i : Nat) (cells : List Cell)
    (seps : List Bytes) :
    ∃ tail, rawAll lead ++ grid.cells closed i cells seps = rawAll (grid.front lead i cells seps) ++ tail := by
  fun_induction front grid lead i cells seps with
  | case1 lead i c cells sep seps ih =>
    obtain ⟨tail, htail⟩ := ih
    refine ⟨tail, ?_⟩
    rw [Piece.rawAll_append, List.append_assoc, ← htail]
    simp [Grid.cells, separator, padding, rawAll_cellPieces, Piece.raw, Bytes.spaces]
  | case2 => exact ⟨_, rfl⟩

/-- The cells and separators that a row is written from are its own, in order. -/
theorem filter_front (grid : Grid) {lead : List Piece} (hlead : lead.filter (!·.isBlanks) = []) (i : Nat)
    (cells : List Cell) (seps : List Bytes) :
    (grid.front lead i cells seps).filter (!·.isBlanks) =
      (cells.zip seps).flatMap fun p => [.text p.1.text.1, .separator p.2] := by
  fun_induction front grid lead i cells seps with
  | case1 lead i c cells sep seps ih =>
    have hcell : (grid.cellPieces i c.text.1).filter (!·.isBlanks) = [.text c.text.1] := by
      unfold cellPieces
      split <;> rfl
    rw [List.filter_append, List.filter_append, List.filter_append, hlead, hcell, ih rfl]
    rfl
  | case2 cells lead i seps hnone =>
    cases cells with
    | nil => rfl
    | cons c cells =>
      cases seps with
      | nil => rfl
      | cons sep seps => exact (hnone c cells sep seps rfl rfl).elim

/-- No cell and no separator breaks the line. -/
theorem newline_notMem_cells (grid : Grid) (closed : Bool) (i : Nat) {cells : List Cell} {seps : List Bytes}
    (hcells : ∀ c ∈ cells, Byte.newline ∉ c.text.1) (hseps : ∀ sep ∈ seps, Byte.newline ∉ sep) :
    Byte.newline ∉ grid.cells closed i cells seps := by
  have hblanks := Bytes.newline_notMem_spaces
  have hspace : Byte.newline ≠ Byte.space := by decide
  have hcell : ∀ i followed text, Byte.newline ∉ text → Byte.newline ∉ grid.cell i followed text := by
    intro i followed text htext
    unfold cell padding
    dsimp only
    split
    · simp [hblanks, htext]
    · split <;> simp [hblanks, htext]
  fun_induction Grid.cells grid closed i cells seps with
  | case1 => exact List.not_mem_nil
  | case2 i c cells ih =>
    obtain ⟨hc, hcells⟩ := List.forall_mem_cons.1 hcells
    simp [hcell i closed _ hc, ih hcells hseps]
  | case3 i c cells sep seps ih =>
    obtain ⟨hc, hcells⟩ := List.forall_mem_cons.1 hcells
    obtain ⟨hsep, hseps⟩ := List.forall_mem_cons.1 hseps
    simp [hcell i true _ hc, ih hcells hseps, separator, padding, hblanks, hspace, hsep]

/-- No piece up to the last separator breaks the line. -/
theorem newline_notMem_front (grid : Grid) {lead : List Piece} (hlead : Byte.newline ∉ rawAll lead) (i : Nat)
    {cells : List Cell} {seps : List Bytes} (hcells : ∀ c ∈ cells, Byte.newline ∉ c.text.1)
    (hseps : ∀ sep ∈ seps, Byte.newline ∉ sep) : Byte.newline ∉ rawAll (grid.front lead i cells seps) := by
  obtain ⟨tail, htail⟩ := exists_cells_eq grid true lead i cells seps
  have hline := List.mem_append.not.2 (not_or.2 ⟨hlead, newline_notMem_cells grid true i hcells hseps⟩)
  rw [htail, List.mem_append, not_or] at hline
  exact hline.1

/-- The pieces end with the last separator. -/
theorem exists_front_eq (grid : Grid) (lead : List Piece) (i : Nat) {cells : List Cell} {seps : List Bytes}
    (hlength : seps.length ≤ cells.length) (hne : seps ≠ []) :
    ∃ s, ∃ sep ∈ seps, rawAll (grid.front lead i cells seps) = s ++ sep := by
  fun_induction front grid lead i cells seps with
  | case1 lead i c cells sep seps ih =>
    by_cases hlast : seps = []
    · subst hlast
      refine ⟨rawAll (lead ++ grid.cellPieces i c.text.1 ++ [.blanks 1]), sep, List.mem_cons_self, ?_⟩
      have hnil : ∀ lead i, grid.front lead i cells [] = [] := by cases cells <;> intros <;> rfl
      simp [hnil, Piece.raw]
    · obtain ⟨s, sep', hsep', hs⟩ := ih (by simpa using hlength) hlast
      refine ⟨rawAll (lead ++ grid.cellPieces i c.text.1 ++ [.blanks 1, .separator sep]) ++ s, sep',
        List.mem_cons_of_mem _ hsep', ?_⟩
      rw [Piece.rawAll_append, hs, ← List.append_assoc]
  | case2 cells lead i seps hnone =>
    obtain ⟨sep, seps, rfl⟩ := List.exists_cons_of_ne_nil hne
    cases cells with
    | nil => simp at hlength
    | cons c cells => exact (hnone c cells sep seps rfl rfl).elim

/-- What is written of a row before its comment begins with the pieces up to the last separator. -/
theorem exists_body_eq_front (grid : Grid) {row : Row} (hne : row.separators ≠ [])
    (hfront : rawAll (grid.front [] 0 row.cells row.separators) ≠ []) :
    ∃ tail, grid.body row = rawAll (grid.front [] 0 row.cells row.separators) ++ tail := by
  obtain ⟨rest, hcells⟩ := exists_cells_eq grid (!row.rowSeparator.isEmpty) [] 0 row.cells row.separators
  rw [Piece.rawAll_nil, List.nil_append] at hcells
  have hsome : row.separators.isEmpty = false := by simpa using hne
  unfold body
  simp only [hsome, Bool.false_and, Bool.false_eq_true, if_false, hcells]
  split
  · exact ⟨rest, rfl⟩
  · rw [if_neg (by simp [hfront])]
    exact ⟨rest ++ [Byte.space] ++ row.rowSeparator, by simp⟩

/-- **The line of a row begins with the pieces up to the last separator.** Blanks at its end may be stripped, but a
    separator is no blank. -/
theorem exists_line_eq_front (grid : Grid) {row : Row} (hrow : Complete row.cells row.separators)
    (hne : row.separators ≠ []) :
    ∃ tail, grid.line row = rawAll (grid.front [] 0 row.cells row.separators) ++ tail ∧ grid.line row ≠ [] := by
  have hlength : row.separators.length ≤ row.cells.length := by simp [hrow.length]
  obtain ⟨s, sep, hsep, hfront⟩ := exists_front_eq grid [] 0 hlength hne
  rw [hrow.separators sep hsep] at hfront
  obtain ⟨tail, hbody⟩ := exists_body_eq_front grid hne (by simp [hfront])
  unfold line
  split
  · exact ⟨tail, hbody, by simp [hbody, hfront]⟩
  · next c _ =>
    rw [hfront, List.append_assoc, List.singleton_append] at hbody
    obtain ⟨kept, -, hstrip, -⟩ := @Text.exists_stripEnd_append (· == Byte.space) Byte.ampersand rfl s tail
    refine ⟨kept ++ Byte.space :: Byte.percent :: c.content, ?_, by simp⟩
    rw [hbody, Text.stripPadding, hstrip, hfront]
    simp

/-- How a row is written so that its separators line up. -/
structure Aligned (grid : Grid) (row : Row) : Prop where
  /-- No cell is wider than its place. -/
  cells : Within (row.cells.map fun c => grid.measure c.text.1) grid.cellWidths
  /-- No separator is wider than its place. -/
  separators : Within (row.separators.map grid.measure) grid.gapWidths
  /-- Besides its rules the row has one line. -/
  lines : row.separators ≠ [] → grid.lines row = row.rules.map Node.raw ++ [grid.line row]
  /-- The line begins with cells and separators, with blanks between them and no newline, and every separator starts
      at the column of its index. -/
  starts : ∃ pieces tail, grid.line row = rawAll pieces ++ tail ∧ Byte.newline ∉ rawAll pieces ∧
    pieces.filter (!·.isBlanks) =
      (row.cells.zip row.separators).flatMap (fun p => [.text p.1.text.1, .separator p.2]) ∧
    starts grid.measure 0 pieces = (List.range row.separators.length).map grid.column

end Grid

theorem newline_notMem_text {cell : Cell} (h : cell.text.2 = true) : Byte.newline ∉ cell.text.1 := by
  unfold Cell.text at *
  split at h
  · next text _ => simpa [Bytes.hasNewline] using h
  · cases h

/-- **The separators of a table line up.** A table that can be aligned is written row by row, and in the line of each
    row the separator with index `i` starts at `Grid.column i`, which is the same for all rows: the widest cells up to
    its own, the widest separators before it with a space on either side, and one more space. -/
theorem separators_line_up {measure : Bytes → Nat} (hspaces : ∀ n, measure (Bytes.spaces n) = n)
    (columns : List Column) {content : List Node} (hgrid : isGrid (Row.split content) = true) :
    format measure columns (Row.split content) =
        (Row.split content).flatMap (gridOf measure columns (Row.split content)).lines ∧
      ∀ row ∈ Row.split content, (gridOf measure columns (Row.split content)).Aligned row := by
  refine ⟨rfl, fun row hrow => ?_⟩
  have hcomplete := (split_split content).complete.1 row hrow
  generalize Row.split content = rows at hgrid hrow
  have hcells := (within_foldl (fun row => row.cells.map fun c => measure c.text.1) rows []).2 row hrow
  have hseps := (within_foldl (fun row => row.separators.map measure) rows []).2 row hrow
  by_cases hne : row.separators = []
  · refine ⟨hcells, hseps, fun h => absurd hne h, [], _, rfl, List.not_mem_nil, by simp [hne], ?_⟩
    rw [hne]
    rfl
  · obtain ⟨tail, hline, hsome⟩ := Grid.exists_line_eq_front (gridOf measure columns rows) hcomplete hne
    refine ⟨hcells, hseps, fun _ => ?_, _, tail, hline, ?_, Grid.filter_front _ rfl 0 _ _, ?_⟩
    · simp [Grid.lines, hsome]
    · refine Grid.newline_notMem_front _ List.not_mem_nil 0 (fun c hc => newline_notMem_text ?_) fun sep hsep => ?_
      · have hrow := (Bool.and_eq_true_iff.1 (List.all_eq_true.1 hgrid row hrow)).1
        exact List.all_eq_true.1 hrow c hc
      · rw [hcomplete.separators sep hsep]
        decide
    · have hlength : row.separators.length ≤ row.cells.length := by simp [hcomplete.length]
      rw [Grid.starts_front hspaces hlength hcells hseps rfl rfl]
      simp

/-- A row of three cells and one of two. The last cell of the second row is empty, and a comment follows it. -/
def raggedTable : List Node :=
  let word (s : String) : Node := .leaf {} {} (.text (bytes s))
  [word "a", word "&", word "bbb", word "&", word "c",
    .branch {} {} (.command [Byte.backslash] [Byte.backslash]) [] [], word "aaaa", word "&",
    .leaf {} {} (.comment { content := bytes " two" } false)]

/-- Both rows have their first separator at column 5, though spaces at the end of the second row are stripped. -/
theorem separators_line_up_raggedTable :
    isGrid (Row.split raggedTable) = true ∧
    (gridOf Text.displayWidth (columns (bytes "lr")) (Row.split raggedTable)).column 0 = 5 ∧
    format Text.displayWidth (columns (bytes "lr")) (Row.split raggedTable) =
      [bytes "a    & bbb & c \\\\", bytes "aaaa & % two"] ∧
    ∀ row ∈ Row.split raggedTable,
      (gridOf Text.displayWidth (columns (bytes "lr")) (Row.split raggedTable)).Aligned row :=
  have hgrid : isGrid (Row.split raggedTable) = true := by decide +kernel
  ⟨hgrid, by decide +kernel, by decide +kernel, (separators_line_up Text.displayWidth_spaces _ hgrid).2⟩

end Table

end TexTidy
