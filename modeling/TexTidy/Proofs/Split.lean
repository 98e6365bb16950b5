import TexTidy.Proofs.TableInk

/-!
# TexTidy.Proofs.Split

Where the rows of a table come from. `Split rows ns` takes a sequence of nodes apart, row by row: rules with
white space before them, cells with the column separators between them, and what ends the row. White space
around a cell belongs to the cell and is not part of the row.

`split_splitFrom`: the rows that a sequence is split into are such rows of the sequence.
-/

namespace TexTidy

namespace Table

open Node (trim)

/-! ## parts of a row -/

/-- Rules, with white space before each of them. -/
inductive Ruled : List Node → List Node → Prop
  | nil : Ruled [] []
  | cons {us n rules ns} (spaces : ∀ u ∈ us, u.isSpace = true) (draws : drawsRule n = true)
      (rest : Ruled rules ns) : Ruled (n :: rules) (us ++ n :: ns)

/-- Cells with separators between them. -/
inductive Celled : List Cell → List Bytes → List Node → Prop
  | last (c : List Node) : Celled [trim c] [] c
  | cons (c : List Node) {n sep cells seps ns} (separates : columnSeparator? n = some sep)
      (rest : Celled cells seps ns) : Celled (trim c :: cells) (sep :: seps) (c ++ n :: ns)

/-- What ends a row: a row separator, a comment, or both. -/
inductive Ending (row : Row) : List Node → Prop
  | separator {n} (ends : endsRow n = true) (sep : row.rowSeparator = n.raw) (bare : row.comment = none) :
      Ending row [n]
  | comment {m c} (unclosed : row.rowSeparator = []) (own : row.comment = some m)
      (remark : m.comment? = some c) : Ending row [m]
  | both {n m c} (ends : endsRow n = true) (sep : row.rowSeparator = n.raw) (own : row.comment = some m)
      (remark : m.comment? = some c) : Ending row [n, m]

/-- The rows of a sequence. Nothing has to end the last one. -/
inductive Split : List Row → List Node → Prop
  | nil {us} (spaces : ∀ u ∈ us, u.isSpace = true) : Split [] us
  | last {row rs cs} (rules : Ruled row.rules rs) (cells : Celled row.cells row.separators cs)
      (unclosed : row.rowSeparator = []) (bare : row.comment = none) : Split [row] (rs ++ cs)
  | cons {row rs cs es rows ns} (rules : Ruled row.rules rs) (cells : Celled row.cells row.separators cs)
      (ending : Ending row es) (rest : Split rows ns) : Split (row :: rows) (rs ++ (cs ++ (es ++ ns)))

theorem Ruled.concat {us rules ns : List Node} {n : Node} (h : Ruled rules ns)
    (hus : ∀ u ∈ us, u.isSpace = true) (hn : drawsRule n = true) :
    Ruled (rules ++ [n]) (ns ++ (us ++ [n])) := by
  induction h with
  | nil => exact .cons hus hn .nil
  | cons spaces draws rest ih =>
    rw [List.append_assoc]
    exact .cons spaces draws ih

theorem Celled.concat {cells : List Cell} {seps : List Bytes} {ns : List Node} {n : Node} {sep : Bytes}
    (h : Celled cells seps ns) (hn : columnSeparator? n = some sep) (c : List Node) :
    Celled (cells ++ [trim c]) (seps ++ [sep]) (ns ++ n :: c) := by
  induction h with
  | last d => exact .cons d hn (.last c)
  | cons d separates rest ih =>
    rw [List.append_assoc]
    exact .cons d separates ih

/-! ## splitting -/

/-- Cells and separators of a row under construction, whatever its last cell will be. -/
def Fronted (cells : List Cell) (seps : List Bytes) (ns : List Node) : Prop :=
  ∀ c, Celled (cells ++ [trim c]) seps (ns ++ c)

theorem fronted_nil : Fronted [] [] [] :=
  .last

theorem Fronted.concat {cells : List Cell} {seps : List Bytes} {ns : List Node} {n : Node} {sep : Bytes}
    (h : Fronted cells seps ns) (c : Cell) (hn : columnSeparator? n = some sep) :
    Fronted (cells ++ [trim c]) (seps ++ [sep]) (ns ++ c ++ [n]) := by
  intro d
  simpa using (h c).concat hn d

/-- Before the first cell there is only white space. -/
theorem Fronted.spaces {seps : List Bytes} {ns : List Node} {c : Cell} (h : Fronted [] seps ns)
    (hc : trim c = []) : ∀ n ∈ ns ++ c, n.isSpace = true := by
  have hcells := h c
  rw [List.nil_append, hc] at hcells
  generalize hcell : ([[]] : List Cell) = cells at hcells
  generalize ns ++ c = ms at hcells
  cases hcells with
  | last => exact Node.all_of_trim (List.cons.inj hcell).1.symm
  | cons d separates rest =>
    obtain ⟨-, hnil⟩ := List.cons.inj hcell
    rw [← hnil] at rest
    cases rest

/-- A row that ends, its last cell included, and the rows behind it. -/
theorem closed_row (row : Row) {cell : Cell} {rows : List Row} {rs cs es ns : List Node}
    (hrules : Ruled row.rules rs) (hcells : Celled row.cells row.separators (cs ++ cell))
    (hending : Ending row es) (hrest : Split rows ([] ++ ([] ++ ([] ++ ns)))) :
    Split (row :: rows) (rs ++ (cs ++ (cell ++ (es ++ ns)))) := by
  simpa using Split.cons hrules hcells hending hrest

/-- **The rows that a sequence is split into are rows of the sequence.** -/
theorem split_splitFrom (row : Row) (cell : Cell) (ns : List Node) (hrow : row.Growing) :
    ∀ {rs cs : List Node}, Ruled row.rules rs → Fronted row.cells row.separators cs →
      Split (Row.splitFrom row cell ns) (rs ++ (cs ++ (cell ++ ns))) := by
  fun_induction Row.splitFrom row cell ns with
  | case1 row cell hfresh =>
    intro rs cs hrules hfront
    obtain ⟨hfresh, hnone⟩ := Bool.and_eq_true_iff.1 hfresh
    obtain ⟨hcells, htrim⟩ := Row.fresh_iff hfresh
    rw [List.isEmpty_iff.1 hnone] at hrules
    rw [hcells] at hfront
    cases hrules
    rw [List.nil_append, List.append_nil]
    exact .nil (hfront.spaces htrim)
  | case2 row cell =>
    intro rs cs hrules hfront
    rw [List.append_nil]
    exact .last hrules (hfront cell) hrow.unclosed hrow.uncommented
  | case3 row cell n rest sep hsep row' ih =>
    intro rs cs hrules hfront
    simpa using ih (Row.growing_addSeparator cell sep hrow) hrules (hfront.concat cell hsep)
  | case4 row cell n rest c hc hsep hinside ih =>
    intro rs cs hrules hfront
    simpa using ih hrow hrules hfront
  | case5 row cell n rest c hc hsep hends ih =>
    intro rs cs hrules hfront
    exact closed_row { row.addCell cell with comment := some n } hrules (hfront cell)
      (.comment hrow.unclosed rfl hc) (ih Row.growing_empty .nil fronted_nil)
  | case6 row cell n hc hsep hends row' m more hsame ih =>
    intro rs cs hrules hfront
    obtain ⟨c, hcomment⟩ := Row.exists_comment_of_sameLine hsame
    exact closed_row { row' with comment := some m } hrules (hfront cell)
      (.both hends rfl rfl hcomment) (ih Row.growing_empty .nil fronted_nil)
  | case7 row cell n hc hsep hends row' m more hsame ih =>
    intro rs cs hrules hfront
    exact closed_row row' hrules (hfront cell) (.separator hends rfl hrow.uncommented)
      (ih Row.growing_empty .nil fronted_nil)
  | case8 row cell n hc hsep hends row' ih =>
    intro rs cs hrules hfront
    exact closed_row row' hrules (hfront cell) (.separator hends rfl hrow.uncommented)
      (ih Row.growing_empty .nil fronted_nil)
  | case9 row cell n rest hc hsep hends hrule ih =>
    intro rs cs hrules hfront
    obtain ⟨hdraws, hfresh⟩ := Bool.and_eq_true_iff.1 hrule
    obtain ⟨hcells, htrim⟩ := Row.fresh_iff hfresh
    have hseps : row.separators = [] := List.length_eq_zero_iff.1 (by rw [← hrow.even, hcells]; rfl)
    rw [hcells] at hfront
    have hnext : Fronted row.cells row.separators [] := by
      rw [hcells, hseps]
      exact fronted_nil
    simpa using ih ⟨hrow.even, hrow.unclosed, hrow.uncommented⟩
      (hrules.concat (hfront.spaces htrim) hdraws) hnext
  | case10 row cell n rest hc hsep hends hrule ih =>
    intro rs cs hrules hfront
    simpa using ih hrow hrules hfront

theorem split_split (content : List Node) : Split (Row.split content) content :=
  split_splitFrom {} [] content Row.growing_empty .nil fronted_nil

end Table

end TexTidy
