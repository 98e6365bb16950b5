import TexTidy.Proofs.Split

/-!
# TexTidy.Proofs.Partition

Splitting a sequence into rows takes it apart and does nothing else. A row is read from its rules over its cells,
with the separators between them, to its row separator and its comment; a separator is read as its text, since that
is all that a row keeps of it. The rows of a sequence are wide rows that were tidied: a wide row still has the white
space around its rules and at the ends of its cells, and the wide rows, read in order, are the sequence.

`partitions_splitFrom` follows the splitting of a sequence. Beside the row under construction it builds the same row
untidied, and what was met so far is always what that row and the open cell read.
-/

namespace TexTidy.Table

open Node (trim)

/-! ## reading a row -/

/-- What a row is made of. -/
inductive Element where
  | node (n : Node)
  /-- A column separator or a row separator. -/
  | separator (text : Bytes)

/-- What a node of a table is in a row. -/
def element (n : Node) : Element :=
  if (columnSeparator? n).isSome || endsRow n then .separator n.raw else .node n

/-- Cells with the separators between them, in order. -/
def interleave : List Cell → List Bytes → List Element
  | [], _ => []
  | c :: cs, [] => c.map .node ++ interleave cs []
  | c :: cs, sep :: seps => c.map .node ++ .separator sep :: interleave cs seps

/-- The row separator with this text, if the row has one. -/
def separator? (text : Bytes) : List Element :=
  if text.isEmpty then [] else [.separator text]

/-- Cells that each have their separator come before all others. -/
theorem interleave_append {cells : List Cell} {seps : List Bytes} (h : cells.length = seps.length)
    (cells' : List Cell) (seps' : List Bytes) :
    interleave (cells ++ cells') (seps ++ seps') = interleave cells seps ++ interleave cells' seps' := by
  induction cells generalizing seps with
  | nil =>
    rw [List.length_eq_zero_iff.1 h.symm]
    rfl
  | cons c cells ih =>
    cases seps with
    | nil => cases h
    | cons sep seps => simp [interleave, ih (Nat.succ.inj h)]

namespace Row

/-- A row, read from its rules to its comment. -/
def elements (row : Row) : List Element :=
  row.rules.map .node ++ interleave row.cells row.separators ++ separator? row.rowSeparator ++
    row.comment.toList.map .node

/-- The row without the white space around its rules and at the ends of its cells. -/
def tidy (row : Row) : Row :=
  { row with rules := row.rules.filter (!·.isSpace), cells := row.cells.map trim }

/-- The row with one more cell, and nothing trimmed. -/
def putCell (row : Row) (cell : Cell) : Row :=
  { row with cells := row.cells ++ [cell] }

variable {wide : Row}

/-- What closes a row is read behind its last cell. -/
theorem elements_close (h : wide.Growing) (cell : Cell) (sep : Bytes) (comment : Option Node) :
    elements { wide.putCell cell with rowSeparator := sep, comment := comment } =
      wide.elements ++ cell.map .node ++ separator? sep ++ comment.toList.map .node := by
  have hcells := interleave_append h.even [cell] []
  rw [List.append_nil] at hcells
  simp [elements, putCell, hcells, h.unclosed, h.uncommented, interleave, separator?]

/-- A column separator is read behind its cell. -/
theorem elements_separate (h : wide.Growing) (cell : Cell) (sep : Bytes) :
    elements { wide.putCell cell with separators := wide.separators ++ [sep] } =
      wide.elements ++ cell.map .node ++ [.separator sep] := by
  have hcells := interleave_append h.even [cell] [sep]
  simp [elements, putCell, hcells, h.unclosed, h.uncommented, interleave, separator?]

/-- A rule and the white space before it are read behind the rules of a row without cells. -/
theorem elements_rule (h : wide.Growing) (hcells : wide.cells = []) (cell : Cell) (n : Node) :
    elements { wide with rules := wide.rules ++ cell ++ [n] } = wide.elements ++ cell.map .node ++ [.node n] := by
  simp [elements, hcells, h.unclosed, h.uncommented, interleave, separator?]

end Row

/-! ## nodes that are no separators -/

theorem element_eq_node {n : Node} (hsep : columnSeparator? n = none) (hends : endsRow n = false) :
    element n = .node n := by
  simp [element, hsep, hends]

theorem element_of_comment? {n : Node} {c : Comment} (h : n.comment? = some c) : element n = .node n := by
  obtain ⟨span, hints, before, rfl⟩ := Node.exists_of_comment? h
  rfl

theorem element_of_endsRow {n : Node} (hends : endsRow n = true) : element n = .separator n.raw := by
  simp [element, hends]

/-- What a row keeps of a column separator is its text. -/
theorem element_of_columnSeparator? {n : Node} {sep : Bytes} (hsep : columnSeparator? n = some sep) :
    element n = .separator sep := by
  simp [element, hsep, Row.raw_columnSeparator? hsep]

/-- A command is no white space, and its text is not empty. -/
theorem exists_of_controlName? {n : Node} {p : Bytes → Bool} (h : n.controlName?.any p = true) :
    ∃ span hints name args content, n = .branch span hints (.command [Byte.backslash] name) args content := by
  cases n with
  | leaf span hints l => cases h
  | branch span hints shape args content =>
    cases shape with
    | command escape name =>
      by_cases hescape : escape = [Byte.backslash]
      · exact ⟨span, hints, name, args, content, by rw [hescape]⟩
      · simp [Node.controlName?, Node.command?, hescape] at h
    | _ => cases h

theorem raw_ne_nil_of_endsRow {n : Node} (h : endsRow n = true) : n.raw ≠ [] := by
  obtain ⟨span, hints, name, args, content, rfl⟩ := exists_of_controlName? h
  simp [Node.raw_branch, Shape.opening]

theorem isSpace_of_drawsRule {n : Node} (h : drawsRule n = true) : n.isSpace = false := by
  obtain ⟨span, hints, name, args, content, rfl⟩ := exists_of_controlName? h
  rfl

/-! ## splitting -/

theorem separator?_of_endsRow {n : Node} (h : endsRow n = true) : separator? n.raw = [.separator n.raw] := by
  simp [separator?, raw_ne_nil_of_endsRow h]

/-- The rows are wide rows that were tidied, and the elements are what the wide rows read, with white space behind
    them. -/
def Partitions (rows : List Row) (es : List Element) : Prop :=
  ∃ (wide : List Row) (blank : List Node), (∀ n ∈ blank, n.isSpace = true) ∧
    es = wide.flatMap Row.elements ++ blank.map .node ∧ rows = wide.map Row.tidy

theorem Partitions.cons {rows : List Row} {es : List Element} (wide : Row) (h : Partitions rows es) :
    Partitions (wide.tidy :: rows) (wide.elements ++ es) := by
  obtain ⟨others, blank, hblank, rfl, rfl⟩ := h
  exact ⟨wide :: others, blank, hblank, by simp, rfl⟩

/-- A row that ends, and the rows behind it. -/
theorem Partitions.close {wide row : Row} {rows : List Row} {es : List Element} (h : Partitions rows es)
    (hwide : wide.Growing) (htidy : wide.tidy = row) (cell : Cell) (sep : Bytes) (comment : Option Node) :
    Partitions ({ row.addCell cell with rowSeparator := sep, comment := comment } :: rows)
      (wide.elements ++ (cell.map .node ++ (separator? sep ++ (comment.toList.map .node ++ es)))) := by
  have hcons := h.cons { wide.putCell cell with rowSeparator := sep, comment := comment }
  rw [Row.elements_close hwide] at hcons
  subst htidy
  simpa [Row.tidy, Row.putCell, Row.addCell] using hcons

/-- **A row under construction, its open cell and the nodes that are left are partitioned.** -/
theorem partitions_splitFrom (row : Row) (cell : Cell) (ns : List Node) (hcell : cell.map element = cell.map .node) :
    ∀ wide : Row, wide.Growing → wide.tidy = row →
      Partitions (Row.splitFrom row cell ns) (wide.elements ++ (cell ++ ns).map element) := by
  have hempty : ∀ {ns : List Node} {rows : List Row},
      (∀ wide : Row, wide.Growing → wide.tidy = {} → Partitions rows (wide.elements ++ ([] ++ ns).map element)) →
      Partitions rows (ns.map element) := fun h => h {} Row.growing_empty rfl
  fun_induction Row.splitFrom row cell ns with
  | case1 row cell hfresh =>
    rintro wide hwide rfl
    obtain ⟨hfresh, hrules⟩ := Bool.and_eq_true_iff.1 hfresh
    obtain ⟨hcells, htrim⟩ := Row.fresh_iff hfresh
    have hspaces : ∀ n ∈ wide.rules, n.isSpace = true := by
      simpa [Row.tidy] using hrules
    have hnone : wide.cells = [] := by simpa [Row.tidy] using hcells
    refine ⟨[], wide.rules ++ cell, ?_, ?_, rfl⟩
    · exact fun n hn => (List.mem_append.1 hn).elim (hspaces n) (Node.all_of_trim htrim n)
    · simp [Row.elements, hnone, hwide.unclosed, hwide.uncommented, interleave, separator?, hcell]
  | case2 row cell =>
    rintro wide hwide rfl
    have hnone : Partitions [] [] := ⟨[], [], by simp, rfl, rfl⟩
    have hlast := hnone.close hwide rfl cell [] none
    simpa [separator?, hcell, Row.addCell, Row.tidy, hwide.unclosed, hwide.uncommented] using hlast
  | case3 row cell n rest sep hsep row' ih =>
    rintro wide hwide rfl
    have hnext := ih rfl { wide.putCell cell with separators := wide.separators ++ [sep] }
      ⟨by simp [Row.putCell, hwide.even], hwide.unclosed, hwide.uncommented⟩
      (by simp [row', Row.tidy, Row.putCell, Row.addCell])
    rw [Row.elements_separate hwide] at hnext
    simpa [hcell, element_of_columnSeparator? hsep] using hnext
  | case4 row cell n rest c hc hsep hinside ih =>
    rintro wide hwide rfl
    simpa using ih (by simp [hcell, element_of_comment? hc]) wide hwide rfl
  | case5 row cell n rest c hc hsep hends ih =>
    rintro wide hwide rfl
    have hclose := (hempty (ih rfl)).close hwide rfl cell [] (some n)
    simpa [separator?, hcell, element_of_comment? hc, Row.addCell, Row.tidy, hwide.unclosed] using hclose
  | case6 row cell n hc hsep hends row' m more hsame ih =>
    rintro wide hwide rfl
    obtain ⟨c, hcomment⟩ := Row.exists_comment_of_sameLine hsame
    have hclose := (hempty (ih rfl)).close hwide rfl cell n.raw (some m)
    simpa [separator?_of_endsRow hends, hcell, element_of_endsRow hends, element_of_comment? hcomment]
      using hclose
  | case7 row cell n hc hsep hends row' m more hsame ih =>
    rintro wide hwide rfl
    have hclose := (hempty (ih rfl)).close hwide rfl cell n.raw none
    simpa [separator?_of_endsRow hends, hcell, element_of_endsRow hends, row', Row.addCell, Row.tidy,
      hwide.uncommented] using hclose
  | case8 row cell n hc hsep hends row' ih =>
    rintro wide hwide rfl
    have hclose := (hempty (ih rfl)).close hwide rfl cell n.raw none
    simpa [separator?_of_endsRow hends, hcell, element_of_endsRow hends, row', Row.addCell, Row.tidy,
      hwide.uncommented] using hclose
  | case9 row cell n rest hc hsep hends hrule ih =>
    rintro wide hwide rfl
    obtain ⟨hdraws, hfresh⟩ := Bool.and_eq_true_iff.1 hrule
    obtain ⟨hcells, htrim⟩ := Row.fresh_iff hfresh
    have hnone : wide.cells = [] := by simpa [Row.tidy] using hcells
    have hspaces : cell.filter (!·.isSpace) = [] := by
      simpa using Node.all_of_trim htrim
    have hnext := ih rfl { wide with rules := wide.rules ++ cell ++ [n] }
      ⟨hwide.even, hwide.unclosed, hwide.uncommented⟩
      (by simp [Row.tidy, hspaces, isSpace_of_drawsRule hdraws])
    rw [Row.elements_rule hwide hnone] at hnext
    simpa [hcell, element_eq_node hsep (Bool.eq_false_iff.2 hends)] using hnext
  | case10 row cell n rest hc hsep hends hrule ih =>
    rintro wide hwide rfl
    simpa using ih (by simp [hcell, element_eq_node hsep (Bool.eq_false_iff.2 hends)]) wide hwide rfl

/-! ## rows -/

/-- A sequence without the white space at its ends begins with no white space. -/
theorem isSpace_of_head?_trim {ns : List Node} {n : Node} (h : (trim ns).head? = some n) : n.isSpace = false := by
  -- What is trimmed on the right does not change the first node.
  have hfront : trim ns <+: ns.dropWhile Node.isSpace := by
    rw [trim, ← List.reverse_suffix, List.reverse_reverse]
    exact List.dropWhile_suffix _
  obtain ⟨rest, hrest⟩ := List.head?_eq_some_iff.1 h
  obtain ⟨tail, htail⟩ := hfront
  have hhead := List.head?_dropWhile_not Node.isSpace ns
  rw [← htail, hrest] at hhead
  exact hhead

theorem isSpace_of_getLast?_trim {ns : List Node} {n : Node} (h : (trim ns).getLast? = some n) :
    n.isSpace = false := by
  rw [Node.getLast?_trim] at h
  simpa using List.find?_some h

/-- Trimmed cells with a separator between any two of them. -/
structure Complete (cells : List Cell) (seps : List Bytes) : Prop where
  length : cells.length = seps.length + 1
  trimmed : ∀ c ∈ cells, ∃ ns, c = trim ns
  separators : ∀ sep ∈ seps, sep = [Byte.ampersand]

theorem eq_ampersand_of_columnSeparator? {n : Node} {sep : Bytes} (h : columnSeparator? n = some sep) :
    sep = [Byte.ampersand] := by
  unfold columnSeparator? at h
  split at h
  · split at h
    · next hcontent =>
      cases h
      exact hcontent
    · cases h
  · cases h

theorem Celled.complete {cells : List Cell} {seps : List Bytes} {ns : List Node} (h : Celled cells seps ns) :
    Complete cells seps := by
  induction h with
  | last c => exact ⟨rfl, by simp, by simp⟩
  | cons c separates rest ih =>
    refine ⟨by simpa using ih.length, List.forall_mem_cons.2 ⟨⟨c, rfl⟩, ih.trimmed⟩, ?_⟩
    exact List.forall_mem_cons.2 ⟨eq_ampersand_of_columnSeparator? separates, ih.separators⟩

/-- Something ends the row. -/
def Row.Closed (row : Row) : Prop :=
  row.rowSeparator ≠ [] ∨ row.comment.isSome = true

theorem Ending.closed {row : Row} {es : List Node} (h : Ending row es) : row.Closed := by
  cases h with
  | separator ends sep bare => exact .inl (sep ▸ raw_ne_nil_of_endsRow ends)
  | comment unclosed own remark => exact .inr (by simp [own])
  | both ends sep own remark => exact .inr (by simp [own])

/-- Every row is complete, and every row but the last is closed. -/
theorem Split.complete {rows : List Row} {ns : List Node} (h : Split rows ns) :
    (∀ row ∈ rows, Complete row.cells row.separators) ∧ ∀ row ∈ rows.dropLast, row.Closed := by
  induction h with
  | nil spaces => simp
  | last rules cells unclosed bare => simpa using cells.complete
  | @cons row _ _ _ rows _ rules cells ending rest ih =>
    refine ⟨List.forall_mem_cons.2 ⟨cells.complete, ih.1⟩, ?_⟩
    cases rows with
    | nil => simp
    | cons row' rows => exact List.forall_mem_cons.2 ⟨ending.closed, ih.2⟩

/-- **Splitting a sequence into rows partitions it.** Read in order, wide rows and the white space behind them are
    the sequence, each node once and separators as their text; the rows are the wide rows without the white space
    around rules and at the ends of cells. Every row has one cell more than separators, no cell begins or ends with
    white space, and something ends every row but the last: a row separator, a comment or both. -/
theorem split_partitions (content : List Node) :
    (∃ (wide : List Row) (blank : List Node), (∀ n ∈ blank, n.isSpace = true) ∧
      content.map element = wide.flatMap Row.elements ++ blank.map .node ∧
      Row.split content = wide.map Row.tidy) ∧
    (∀ row ∈ Row.split content, row.cells.length = row.separators.length + 1 ∧ ∀ c ∈ row.cells,
      (∀ n ∈ c.head?, n.isSpace = false) ∧ ∀ n ∈ c.getLast?, n.isSpace = false) ∧
    ∀ row ∈ (Row.split content).dropLast, row.rowSeparator ≠ [] ∨ row.comment.isSome = true := by
  obtain ⟨hrows, hclosed⟩ := (split_split content).complete
  refine ⟨partitions_splitFrom {} [] content rfl {} Row.growing_empty rfl, fun row hrow => ?_, hclosed⟩
  refine ⟨(hrows row hrow).length, fun c hc => ?_⟩
  obtain ⟨ns, rfl⟩ := (hrows row hrow).trimmed c hc
  exact ⟨fun n hn => isSpace_of_head?_trim hn, fun n hn => isSpace_of_getLast?_trim hn⟩

end TexTidy.Table
