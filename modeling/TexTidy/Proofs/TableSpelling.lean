import TexTidy.Proofs.Flowing
import TexTidy.Proofs.Split
import TexTidy.Proofs.TableComment

/-!
# TexTidy.Proofs.TableSpelling

The lines of a table are a spelling of its content. Rows are written one after the other, each rule on a line
of its own and each cell with white space around it, so the nodes of the content are written in order and
only the white space between them changes.

`Underway` is the invariant of that: what is written spells the nodes that were passed, whatever spelling of
the nodes that are left comes next. There is one lemma for each thing that is written, and
`Underway.rows` puts them together along `Table.Split`.
-/

namespace TexTidy

open Bytes (ink)
open Text (Tight Even tight_append even_append)
open Layout (broken Writes Atom)
open Node (All Each Calm hasGlue hasApart beginsApart trim)

/-! ## nodes in a table -/

/-- What is known of every node that was read. -/
structure Node.Quotable (r : Registry) (keep : Bool) (n : Node) : Prop where
  reflows : n.isSpace = false → n.comment? = none → n.Reflows r keep
  solid : n.isSpace = false → n.raw ≠ []
  line : ∀ c, n.comment? = some c → Byte.newline ∉ c.content

/-- The node can be written as it is. -/
structure Node.Ready (r : Registry) (keep : Bool) (n : Node) : Prop extends n.Quotable r keep where
  calm : Each (Calm r keep false) n

/-- The raw text of a node is a spelling of the node. -/
theorem Node.Ready.spells {r : Registry} {keep : Bool} {n : Node} (h : n.Ready r keep)
    (hsolid : n.isSpace = false) (hcode : n.comment? = none) {s : Bytes}
    (heven : n.isControl = true → Even s) :
    Spells r keep (.node n) n.raw ∧ Tight (s ++ n.raw) ∧ n.Balances s (s ++ n.raw) := by
  obtain ⟨g, hflow⟩ := Reflow.of_flatten false false n.rawPieces s
  obtain ⟨u, pads, htext, -, hplain, hspells⟩ := h.reflows hsolid hcode h.calm heven hflow
  obtain ⟨rfl, -⟩ := hplain (.inl rfl)
  rw [List.append_nil] at htext
  rw [Node.raw, List.append_cancel_left htext]
  exact hspells

theorem Node.isSpace_eq_false {n : Node} (hplain : ¬ n.isPlainSpace = true)
    (hbreak : ¬ n.isParbreak = true) : n.isSpace = false := by
  refine Bool.eq_false_iff.2 fun hspace => ?_
  unfold isSpace at hspace
  split at hspace
  · exact hplain rfl
  · exact hbreak rfl
  · cases hspace

/-! ## the invariant -/

/-- Behind `s` the text `x` is written. It has the property `P` with any spelling of the nodes that are left
    behind it: the white space `us`, for which nothing is written yet, and `ns`. -/
structure Underway (r : Registry) (keep : Bool) (P : Bytes → Prop) (s x : Bytes) (b : Before)
    (us ns : List Node) : Prop where
  tight : Tight (s ++ x)
  spaces : ∀ u ∈ us, u.isSpace = true
  even : b.sticky = false ∨ us = [] ∧ Node.leadsToControl ns = true → Even (s ++ x)
  settled : b.hungry = true → beginsApart (us ++ ns) = false
  apart : hasApart r ns = false
  glue : hasGlue ns = false
  ready : ∀ n ∈ ns, n.Ready r keep
  spells : ∀ y, Spells r keep (.nodes b (us ++ ns)) y → P (x ++ y)

/-- White space behind `x`. Nothing is taken for more of what stands before it. -/
structure Parted (b : Before) (s x w : Bytes) : Prop where
  white : ink w = []
  loose : w = [] → b.sticky = false
  plain : (s ++ x ++ w).getLast? ≠ some Byte.backslash

theorem getLast?_ne_backslash {w : Bytes} (hw : ink w = []) (hne : w ≠ []) (s : Bytes) :
    (s ++ w).getLast? ≠ some Byte.backslash := by
  obtain ⟨b, hb⟩ := Option.isSome_iff_exists.1 (List.getLast?_isSome.2 hne)
  rw [List.getLast?_append, hb]
  rintro ⟨⟩
  cases Bytes.ink_eq_nil_iff.1 hw _ (List.mem_of_getLast? hb)

theorem parted_of_ne_nil {b : Before} {s x w : Bytes} (hw : ink w = []) (hne : w ≠ []) : Parted b s x w :=
  ⟨hw, fun h => absurd h hne, getLast?_ne_backslash hw hne _⟩

namespace Underway

variable {r : Registry} {keep : Bool} {P : Bytes → Prop} {s x w t : Bytes} {b : Before}
  {us ns : List Node} {n : Node}

theorem space (h : Underway r keep P s x b us (n :: ns)) (hn : n.isSpace = true) :
    Underway r keep P s x b (us ++ [n]) ns := by
  have hlist : us ++ n :: ns = us ++ [n] ++ ns := by simp
  refine ⟨h.tight, ?_, fun hor => h.even (hor.imp_right fun hnil => by simp at hnil), ?_, ?_,
    (Node.hasGlue_cons h.glue).1,
    fun m hm => h.ready m (List.mem_cons_of_mem _ hm), ?_⟩
  · intro u hu
    rcases List.mem_append.1 hu with hu | hu
    · exact h.spaces u hu
    · rw [List.mem_singleton.1 hu]
      exact hn
  · exact hlist ▸ h.settled
  · have hapart := h.apart
    rw [hasApart, Bool.or_eq_false_iff] at hapart
    exact hapart.2
  · exact hlist ▸ h.spells

theorem pass {vs : List Node} (h : Underway r keep P s x b us (vs ++ ns))
    (hvs : ∀ v ∈ vs, v.isSpace = true) : Underway r keep P s x b (us ++ vs) ns := by
  induction vs generalizing us with
  | nil => simpa using h
  | cons v vs ih =>
    obtain ⟨hv, hvs⟩ := List.forall_mem_cons.1 hvs
    simpa using ih (h.space hv) hvs

/-- A paragraph break that a table drops kept nothing apart. -/
theorem gap (h : Underway r keep P s x b us (n :: ns)) (hsolid : n.isSpace = false) (hw : ink w = [])
    (hkept : us ≠ [] → w = [] → b.sticky = false) : Gap b us w n := by
  refine ⟨h.spaces, hw, hkept, fun hhungry hedible hbreak => ?_⟩
  have htake : (us ++ n :: ns).takeWhile Node.isSpace = us := by
    rw [List.takeWhile_append_of_pos h.spaces, List.takeWhile_cons_of_neg (by simp [hsolid]),
      List.append_nil]
  have hdrop : (us ++ n :: ns).dropWhile Node.isSpace = n :: ns := by
    rw [List.dropWhile_append_of_pos h.spaces, List.dropWhile_cons_of_neg (by simp [hsolid])]
  have hsettled := h.settled hhungry
  obtain ⟨u, hu, hpar⟩ := hbreak
  rw [beginsApart, htake, hdrop, List.any_eq_true.2 ⟨u, hu, hpar⟩, List.head?_cons, Option.any_some,
    hedible] at hsettled
  cases hsettled

/-- A node and the white space before it. -/
theorem code (h : Underway r keep P s x b us (n :: ns)) (hsolid : n.isSpace = false)
    (hcode : n.comment? = none) (hw : ink w = []) (hkept : us ≠ [] → w = [] → b.sticky = false) :
    Underway r keep P s (x ++ w ++ n.raw) (n.before r) [] ns := by
  have hready := h.ready n List.mem_cons_self
  have heven (hcontrol : Node.leadsToControl (n :: ns) = true) : Even (s ++ x ++ w) := by
    refine even_of_white hw fun hnil => ?_
    by_cases hus : us = []
    · exact h.even (.inr ⟨hus, hcontrol⟩)
    · exact h.even (.inl (hkept hus hnil))
  obtain ⟨hspells, htight, hbalances⟩ := hready.spells hsolid hcode
    fun h => heven (Node.leadsToControl_cons.2 (.inl h))
  have hapart := h.apart
  rw [hasApart, Bool.or_eq_false_iff] at hapart
  refine ⟨by simpa using htight, by simp, fun hor => ?_, fun hhungry => ?_, hapart.2,
    (Node.hasGlue_cons h.glue).1, fun m hm => h.ready m (List.mem_cons_of_mem _ hm), fun y hy => ?_⟩
  · simpa using hbalances.even h.glue heven (hor.imp_right And.right)
  · rw [show n.isHungry r = true from hhungry, Bool.true_and] at hapart
    exact hapart.1
  · have hitem := Spells.item (h.gap hsolid hw hkept) hsolid hcode hspells hy
    simpa using h.spells _ hitem

/-- A comment and the end of its line. -/
theorem remark {c : Comment} {line : Bytes} (h : Underway r keep P s x b us (n :: ns))
    (hn : n.comment? = some c) (hw : ink w = []) (hline : Byte.newline ∉ line)
    (hsame : line.trimEnd isLineBlank = c.content.trimEnd isLineBlank) :
    Underway r keep P s (x ++ w ++ Byte.percent :: (line ++ [Byte.newline])) {} [] ns := by
  have hlast : (x ++ w ++ Byte.percent :: (line ++ [Byte.newline])).getLast? = some Byte.newline := by
    rw [List.getLast?_append, List.getLast?_cons, List.getLast?_append]
    rfl
  have hapart := h.apart
  rw [hasApart, Bool.or_eq_false_iff] at hapart
  refine ⟨tight_append hlast rfl, by simp, fun _ => even_append hlast (by decide),
    fun hhungry => (by cases hhungry), hapart.2, (Node.hasGlue_cons h.glue).1,
    fun m hm => h.ready m (List.mem_cons_of_mem _ hm), fun y hy => ?_⟩
  simpa using h.spells _ (hy.remarkLine h.spaces hn hw hline hsame)

/-- White space is left. -/
theorem done (h : Underway r keep P s x b us []) (hw : ink w = []) : P (x ++ w) :=
  h.spells w (by simpa using Spells.done h.spaces hw)

/-! ## cells -/

open Table (Cell)

theorem joined {cell : Cell} {text : Bytes} (h : Underway r keep P s x b us (cell ++ ns))
    (htext : Cell.joined? cell = some text) (hw : ink w = []) (hkept : us ≠ [] → w = [] → b.sticky = false) :
    ∃ x' b' us' w', Underway r keep P s x' b' us' ns ∧ x ++ w ++ text = x' ++ w' ∧ ink w' = [] := by
  induction cell generalizing x b us w text with
  | nil =>
    cases htext
    exact ⟨x, b, us, w, h, by simp, hw⟩
  | cons n cell ih =>
    rw [Cell.joined?] at htext
    split at htext
    · cases htext
    · next hn =>
      obtain ⟨tail, htail, rfl⟩ := Option.map_eq_some_iff.1 htext
      obtain ⟨hbreak, hcode⟩ := not_or.1 (mt Bool.or_eq_true_iff.2 hn)
      split
      · next hplain =>
        obtain ⟨x', b', us', w', hnext, hsame, hw'⟩ := ih (w := w ++ [Byte.space])
          (h.space (Node.isSpace_of_isPlainSpace hplain)) htail (by simp [hw]) (fun _ hnil => by simp at hnil)
        exact ⟨x', b', us', w', hnext, by simpa using hsame, hw'⟩
      · next hplain =>
        have hsolid := Node.isSpace_eq_false hplain hbreak
        obtain ⟨x', b', us', w', hnext, hsame, hw'⟩ := ih (w := [])
          (h.code hsolid (by simpa using hcode) hw hkept) htail rfl (fun hnil => absurd rfl hnil)
        exact ⟨x', b', us', w', hnext, by simpa using hsame, hw'⟩

/-- A cell, with the white space around it. -/
theorem cell {c : List Node} (h : Underway r keep P s x b us (c ++ ns))
    (htext : (Cell.text (trim c)).2 = true) (hw : ink w = []) (hloose : w = [] → b.sticky = false) :
    ∃ x' b' us' w', Underway r keep P s x' b' us' ns ∧ x ++ w ++ (Cell.text (trim c)).1 = x' ++ w' ∧
      ink w' = [] := by
  obtain ⟨front, back, hc, hfront, hback⟩ := Node.trim_eq c
  obtain ⟨text, hjoined, hsame⟩ : ∃ text, Cell.joined? (trim c) = some text ∧
      (Cell.text (trim c)).1 = text := by
    unfold Cell.text at htext ⊢
    split at htext
    · next text hjoined => exact ⟨text, hjoined, rfl⟩
    · cases htext
  rw [hc, List.append_assoc, List.append_assoc] at h
  obtain ⟨x', b', us', w', hnext, htext', hw'⟩ := (h.pass hfront).joined hjoined hw fun _ => hloose
  exact ⟨x', b', us' ++ back, w', hnext.pass hback, by rw [hsame, htext'], hw'⟩

open Table (Grid Row Ruled Celled Ending Split)

/-- A cell is filled up with blanks. -/
theorem exists_cell_eq (grid : Grid) (i : Nat) (followed : Bool) (text : Bytes) :
    ∃ p q, grid.cell i followed text = p ++ text ++ q ∧ ink p = [] ∧ ink q = [] := by
  unfold Grid.cell
  dsimp only
  split
  · exact ⟨_, [], (List.append_nil _).symm, Bytes.ink_spaces _, rfl⟩
  · split
    · exact ⟨[], _, rfl, rfl, Bytes.ink_spaces _⟩
    · exact ⟨[], [], by simp, rfl, rfl⟩

theorem solid_of_columnSeparator? {sep : Bytes} (h : Table.columnSeparator? n = some sep) :
    n.isSpace = false ∧ n.comment? = none := by
  unfold Table.columnSeparator? at h
  split at h
  · exact ⟨rfl, rfl⟩
  · cases h

/-- The cells of a row and the separators between them. -/
theorem cells (grid : Grid) {cells : List Cell} {seps : List Bytes} {cs : List Node}
    (hcs : Celled cells seps cs) (closed : Bool) (i : Nat) (h : Underway r keep P s x b us (cs ++ ns))
    (htext : ∀ c ∈ cells, (Cell.text c).2 = true) (hw : ink w = []) (hloose : w = [] → b.sticky = false) :
    ∃ x' b' us' w', Underway r keep P s x' b' us' ns ∧
      x ++ w ++ grid.cells closed i cells seps = x' ++ w' ∧ ink w' = [] := by
  induction hcs generalizing i x b us w with
  | last c =>
    obtain ⟨p, q, hcell, hp, hq⟩ := exists_cell_eq grid i closed (Cell.text (trim c)).1
    obtain ⟨x', b', us', w', hnext, hsame, hw'⟩ := h.cell (w := w ++ p) (htext _ (by simp))
      (by simp [hw, hp]) fun hnil => hloose (List.append_eq_nil_iff.1 hnil).1
    refine ⟨x', b', us', w' ++ q, hnext, ?_, by simp [hw', hq]⟩
    rw [← List.append_assoc x', ← hsame]
    simp [Grid.cells, hcell]
  | @cons c n sep cells seps cs separates rest ih =>
    obtain ⟨p, q, hcell, hp, hq⟩ := exists_cell_eq grid i true (Cell.text (trim c)).1
    rw [List.append_assoc, List.cons_append] at h
    obtain ⟨x₁, b₁, us₁, w₁, hnext, hsame, hw₁⟩ := h.cell (w := w ++ p) (htext _ (by simp))
      (by simp [hw, hp]) fun hnil => hloose (List.append_eq_nil_iff.1 hnil).1
    obtain ⟨hsolid, hcode⟩ := solid_of_columnSeparator? separates
    have hsep := hnext.code (w := w₁ ++ q ++ [Byte.space]) hsolid hcode (by simp [hw₁, hq])
      fun _ hnil => by simp at hnil
    obtain ⟨x', b', us', w', hlast, hsame', hw'⟩ := ih (i + 1)
      (w := grid.padding (grid.gapWidths.getD i 0) sep ++ [Byte.space]) hsep
      (fun c hc => htext c (by simp [hc])) (by simp) fun hnil => by simp at hnil
    refine ⟨x', b', us', w', hlast, ?_, hw'⟩
    rw [← hsame', Table.Row.raw_columnSeparator? separates, ← List.append_assoc x₁, ← List.append_assoc x₁,
      ← hsame]
    simp [Grid.cells, Grid.separator, hcell]

/-- Every node of a cell is written. -/
theorem eq_nil_of_joined? {cell : Cell} (h : Cell.joined? cell = some [])
    (hsolid : ∀ n ∈ cell, n.isSpace = false → n.raw ≠ []) : cell = [] := by
  cases cell with
  | nil => rfl
  | cons n cell =>
    rw [Cell.joined?] at h
    split at h
    · cases h
    · next hn =>
      obtain ⟨tail, -, hnil⟩ := Option.map_eq_some_iff.1 h
      obtain ⟨hbreak, -⟩ := not_or.1 (mt Bool.or_eq_true_iff.2 hn)
      obtain ⟨hhead, -⟩ := List.append_eq_nil_iff.1 hnil
      split at hhead
      · cases hhead
      · next hplain => exact absurd hhead (hsolid n (by simp) (Node.isSpace_eq_false hplain hbreak))

/-- A line is empty only if there is nothing in the cells of its row. -/
theorem spaces_of_cells_eq_nil (grid : Grid) {cells : List Cell} {seps : List Bytes} {cs : List Node}
    (hcs : Celled cells seps cs) (closed : Bool) (i : Nat) (hnil : grid.cells closed i cells seps = [])
    (htext : ∀ c ∈ cells, (Cell.text c).2 = true)
    (hsolid : ∀ n ∈ cs, n.isSpace = false → n.raw ≠ []) : ∀ n ∈ cs, n.isSpace = true := by
  cases hcs with
  | last =>
    obtain ⟨p, q, hcell, -, -⟩ := exists_cell_eq grid i closed (Cell.text (trim cs)).1
    have hempty : (Cell.text (trim cs)).1 = [] := by
      rw [Grid.cells, hcell] at hnil
      simp only [List.append_eq_nil_iff] at hnil
      exact hnil.1.1.2
    have hline := htext (trim cs) (by simp)
    refine Node.all_of_trim ?_
    unfold Cell.text at hempty hline
    split at hline
    · next text hjoined =>
      simp only [hjoined] at hempty
      rw [hempty] at hjoined
      refine eq_nil_of_joined? hjoined fun n hn => hsolid n ?_
      obtain ⟨front, back, hc, -, -⟩ := Node.trim_eq cs
      rw [hc]
      simp [hn]
    · cases hline
  | cons => simp [Grid.cells, Grid.separator] at hnil

theorem spaces_of_blank {cells : List Cell} {seps : List Bytes} {cs : List Node} (hcs : Celled cells seps cs)
    (hblank : (seps.isEmpty && cells.length == 1 && cells.all List.isEmpty) = true) :
    ∀ n ∈ cs, n.isSpace = true := by
  cases hcs with
  | last => exact Node.all_of_trim (by simpa using hblank)
  | cons => cases hblank

/-- What stands before the row separator of a row. If it is empty, nothing was met. -/
theorem front (grid : Grid) {row : Row} {cs : List Node} (hcs : Celled row.cells row.separators cs)
    (h : Underway r keep P s x b us (cs ++ ns)) (htext : ∀ c ∈ row.cells, (Cell.text c).2 = true)
    (hp : Parted b s x w) :
    ∃ line x' b' us' w', grid.body row = (if row.rowSeparator.isEmpty then line
        else if line.isEmpty then row.rowSeparator else line ++ [Byte.space] ++ row.rowSeparator) ∧
      Underway r keep P s x' b' us' ns ∧ x ++ w ++ line = x' ++ w' ∧ ink w' = [] ∧
      (line = [] → w' = [] → b'.sticky = false) := by
  obtain ⟨line, hbody, hline⟩ : ∃ line, grid.body row = (if row.rowSeparator.isEmpty then line
        else if line.isEmpty then row.rowSeparator else line ++ [Byte.space] ++ row.rowSeparator) ∧
      ((row.separators.isEmpty && row.cells.length == 1 && row.cells.all List.isEmpty) = true ∧ line = [] ∨
        line = grid.cells (!row.rowSeparator.isEmpty) 0 row.cells row.separators) := by
    refine ⟨_, rfl, ?_⟩
    split
    · next hblank => exact .inl ⟨hblank, rfl⟩
    · exact .inr rfl
  by_cases hnil : line = []
  · have hspaces : ∀ n ∈ cs, n.isSpace = true := by
      rcases hline with ⟨hblank, -⟩ | hline
      · exact spaces_of_blank hcs hblank
      · exact spaces_of_cells_eq_nil grid hcs _ _ (hline.symm.trans hnil) htext fun n hn =>
          (h.ready n (List.mem_append_left _ hn)).solid
    exact ⟨line, x, b, us ++ cs, w, hbody, h.pass hspaces, by simp [hnil], hp.white, fun _ => hp.loose⟩
  · obtain ⟨x', b', us', w', hnext, hsame, hw'⟩ :=
      h.cells grid hcs (!row.rowSeparator.isEmpty) 0 htext hp.white hp.loose
    rw [← hline.resolve_left fun h => hnil h.2] at hsame
    exact ⟨line, x', b', us', w', hbody, hnext, hsame, hw', fun h => absurd h hnil⟩

/-! ## the ends of rows -/

theorem solid_of_controlName? {p : Bytes → Bool} (h : n.controlName?.any p = true) :
    n.isSpace = false ∧ n.comment? = none ∧ n.raw ≠ [] := by
  cases n with
  | leaf => cases h
  | branch span hints shape args content =>
    refine ⟨rfl, rfl, ?_⟩
    cases shape with
    | command escape name =>
      rw [Node.controlName?_command] at h
      split at h
      · next hescape => simp [Node.raw_branch, Shape.opening, hescape]
      · cases h
    | _ => cases h

/-- The row separator of a row. -/
theorem rowSeparator (grid : Grid) {row : Row} {cs : List Node} (hcs : Celled row.cells row.separators cs)
    (hends : Table.endsRow n = true) (hsep : row.rowSeparator = n.raw)
    (h : Underway r keep P s x b us (cs ++ n :: ns)) (htext : ∀ c ∈ row.cells, (Cell.text c).2 = true)
    (hp : Parted b s x w) : Underway r keep P s (x ++ w ++ grid.body row) (n.before r) [] ns := by
  obtain ⟨line, x', b', us', w', hbody, hnext, hsame, hw', hloose⟩ := h.front grid hcs htext hp
  obtain ⟨hsolid, hcode, hraw⟩ := solid_of_controlName? hends
  rw [hsep, if_neg (by simpa using hraw)] at hbody
  split at hbody
  · next hempty =>
    have hnil := List.isEmpty_iff.1 hempty
    rw [hnil, List.append_nil] at hsame
    rw [hbody, hsame]
    exact hnext.code hsolid hcode hw' fun _ => hloose hnil
  · have hcode := hnext.code (w := w' ++ [Byte.space]) hsolid hcode (by simp [hw'])
      fun _ hnil => by simp at hnil
    rw [hbody, ← List.append_assoc, ← List.append_assoc, hsame]
    simpa using hcode

end Underway

end TexTidy
