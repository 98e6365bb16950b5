import TexTidy.Proofs.Alignment
import TexTidy.Proofs.NormalForm

/-!
# TexTidy.Proofs.TableRows

One row, one line. Before a table is aligned its cells and its rules are checked for newlines. Column separators are
ampersands, and a comment never holds a newline, whatever source the table comes from. The text that ends a row is left
out of the check, and it can hold a newline in its optional argument. So it is this text, and nothing else, that decides
whether every line of an aligned table is one line (`newline_mem_format_iff`).

What is printed of an aligned table are its lines, each behind a line break and the indentation of the table.
-/

namespace TexTidy

/-- A comment is written on one line. -/
def Node.OneLine (n : Node) : Prop :=
  ∀ c, n.comment? = some c → Byte.newline ∉ c.content

theorem Node.oneLine_of_normal {src : Bytes} {n : Node} (h : n.Normal src) : n.OneLine := by
  intro c hc
  obtain ⟨span, hints, before, rfl⟩ := Node.exists_of_comment? hc
  exact h.2.2

/-- Every comment of a document is written on one line, with hints or without. -/
theorem Parse.oneLine_of_document {r : Registry} {src : Bytes} {tree t : Node} (h : document r src = .ok tree)
    (ht : t = tree ∨ t = tree.annotate r) : Node.Each Node.OneLine t := by
  obtain ⟨body, hbody, rfl⟩ := derives_of_document h
  have htree : Node.Each Node.OneLine (.branch ⟨0, src.length⟩ {} .document [] body.nodes) := fun m hm =>
    Node.oneLine_of_normal (normal_container (hbody.normal (Cursor.at_start src)) m hm)
  rcases ht with rfl | rfl
  · exact htree
  · refine Node.each_annotate r (fun n hn c hc => hn c ?_) _ htree
    rwa [Node.comment?_annotate] at hc

namespace Table

/-! ## rows without newlines -/

/-- Nothing of a row breaks its line but what ends the row. -/
structure Row.OneLine (row : Row) : Prop where
  rules : ∀ rule ∈ row.rules, Byte.newline ∉ rule.raw
  cells : ∀ c ∈ row.cells, Byte.newline ∉ c.text.1
  separators : ∀ sep ∈ row.separators, Byte.newline ∉ sep
  comment : ∀ m ∈ row.comment, m.OneLine

theorem Split.comment_mem {rows : List Row} {ns : List Node} (h : Split rows ns) :
    ∀ row ∈ rows, ∀ m ∈ row.comment, m ∈ ns := by
  induction h with
  | nil => simp
  | last rules cells unclosed bare => simp [bare]
  | @cons row rs cs es rows ns rules cells ending rest ih =>
    refine List.forall_mem_cons.2 ⟨fun m hm => ?_, fun row hrow m hm => by simp [ih row hrow m hm]⟩
    have hes : m ∈ es := by
      cases ending with
      | separator ends sep bare => simp [bare] at hm
      | comment unclosed own remark => simp_all
      | both ends sep own remark => simp_all
    simp [hes]

/-- **A table that passes the check has rows without newlines**, what ends them apart. -/
theorem oneLine_of_isGrid {content : List Node} (hgrid : isGrid (Row.split content) = true)
    (hcontent : ∀ n ∈ content, n.OneLine) : ∀ row ∈ Row.split content, row.OneLine := by
  intro row hrow
  have hsplit := split_split content
  obtain ⟨hcells, hrules⟩ := Bool.and_eq_true_iff.1 (List.all_eq_true.1 hgrid row hrow)
  refine ⟨fun rule hrule => ?_, fun c hc => newline_notMem_text (List.all_eq_true.1 hcells c hc), fun sep hsep => ?_,
    fun m hm => hcontent m (hsplit.comment_mem row hrow m hm)⟩
  · simpa [Bytes.hasNewline] using List.all_eq_true.1 hrules rule hrule
  · rw [(hsplit.complete.1 row hrow).separators sep hsep]
    decide

/-! ## lines -/

namespace Grid

variable (grid : Grid) {row : Row}

theorem newline_mem_body_iff (h : row.OneLine) : Byte.newline ∈ grid.body row ↔ Byte.newline ∈ row.rowSeparator := by
  have hline : Byte.newline ∉ if row.separators.isEmpty && row.cells.length == 1 && row.cells.all List.isEmpty then []
      else grid.cells (!row.rowSeparator.isEmpty) 0 row.cells row.separators := by
    split
    · exact List.not_mem_nil
    · exact newline_notMem_cells grid _ 0 h.cells h.separators
  have hspace : Byte.newline ≠ Byte.space := by decide
  unfold body
  dsimp only
  generalize (if row.separators.isEmpty && row.cells.length == 1 && row.cells.all List.isEmpty then []
    else grid.cells (!row.rowSeparator.isEmpty) 0 row.cells row.separators) = line at *
  split
  · next hempty => simp [List.isEmpty_iff.1 hempty, hline]
  · split
    · rfl
    · simp [hline, hspace]

theorem newline_mem_line_iff (h : row.OneLine) : Byte.newline ∈ grid.line row ↔ Byte.newline ∈ row.rowSeparator := by
  rw [← grid.newline_mem_body_iff h]
  unfold line
  split
  · rfl
  · next c hc =>
    obtain ⟨m, hm, hc⟩ := Option.bind_eq_some_iff.1 hc
    have hcontent := h.comment m hm c hc
    have hbytes : Byte.newline ≠ Byte.space ∧ Byte.newline ≠ Byte.percent := by decide
    have hstrip := @Text.mem_stripEnd_iff (· == Byte.space) Byte.newline rfl (grid.body row)
    rw [← hstrip]
    dsimp only
    split
    · next hempty => simp [List.isEmpty_iff.1 hempty, hcontent, hbytes]
    · simp [hcontent, hbytes]

/-- Among the lines of a row it is the one of the row itself that can hold a newline. -/
theorem newline_mem_lines_iff (h : row.OneLine) :
    (∃ line ∈ grid.lines row, Byte.newline ∈ line) ↔ Byte.newline ∈ row.rowSeparator := by
  rw [← grid.newline_mem_line_iff h]
  have hrules : ¬ ∃ line ∈ row.rules.map Node.raw, Byte.newline ∈ line := by
    simpa using h.rules
  constructor
  · rintro ⟨line, hline, hnewline⟩
    rcases List.mem_append.1 hline with hline | hline
    · exact absurd ⟨line, hline, hnewline⟩ hrules
    · split at hline
      · cases hline
      · rwa [← List.mem_singleton.1 hline]
  · intro hnewline
    have hsome : (grid.line row).isEmpty = false := List.isEmpty_eq_false_iff.2 (List.ne_nil_of_mem hnewline)
    exact ⟨_, List.mem_append_right _ (by simp [hsome]), hnewline⟩

end Grid

/-- **A line of a table holds a newline exactly if a row separator does.** -/
theorem newline_mem_format_iff (measure : Bytes → Nat) (columns : List Column) {rows : List Row}
    (hrows : ∀ row ∈ rows, row.OneLine) :
    (∃ line ∈ format measure columns rows, Byte.newline ∈ line) ↔ ∃ row ∈ rows, Byte.newline ∈ row.rowSeparator := by
  constructor
  · rintro ⟨line, hline, hnewline⟩
    obtain ⟨row, hrow, hline⟩ := List.mem_flatMap.1 hline
    exact ⟨row, hrow, (Grid.newline_mem_lines_iff _ (hrows row hrow)).1 ⟨line, hline, hnewline⟩⟩
  · rintro ⟨row, hrow, hnewline⟩
    obtain ⟨line, hline, hnewline⟩ :=
      ((gridOf measure columns rows).newline_mem_lines_iff (hrows row hrow)).2 hnewline
    exact ⟨line, List.mem_flatMap.2 ⟨row, hrow, hline⟩, hnewline⟩

end Table

/-! ## printing -/

namespace Layout

/-- Stripping does not reach beyond a line break. -/
theorem stripEnd_broken_append (indent : Nat) (out line : Bytes) :
    Text.stripEnd isPad (broken indent out ++ line) =
      Text.stripEnd isPad out ++ Byte.newline :: Text.stripEnd isPad (Bytes.spaces indent ++ line) := by
  have hlines := Text.stripEnd_unlines [Text.stripEnd isPad out] (Bytes.spaces indent ++ line)
  simpa [Bytes.unlines, broken] using hlines

theorem text_renderDoc_hardLine (page : Page) (indent : Nat) (style : Style) (pending : Pending) (sheet : Sheet) :
    (page.renderDoc indent style pending .hardLine sheet).text = broken indent sheet.text := by
  cases style <;> exact Sheet.text_breakLine indent _

/-- Lines that are written one below the other, each with a line break before it. -/
theorem stripEnd_renderAll_lines (page : Page) (indent : Nat) (style : Style) (pending : Pending) (lines : List Bytes)
    (sheet : Sheet) :
    Text.stripEnd isPad (page.renderAll indent style pending (lines.flatMap fun l => [.hardLine, .text l]) sheet).text =
      Text.stripEnd isPad sheet.text ++
        lines.flatMap fun l => Byte.newline :: Text.stripEnd isPad (Bytes.spaces indent ++ l) := by
  induction lines generalizing sheet with
  | nil => simp [Page.renderAll]
  | cons l lines ih =>
    rw [List.flatMap_cons, List.cons_append, List.singleton_append, Page.renderAll, Page.renderAll, ih, Page.renderDoc,
      Sheet.text_write, text_renderDoc_hardLine, stripEnd_broken_append]
    simp

theorem stripEnd_renderDoc_lines (page : Page) (indent : Nat) (style : Style) (pending : Pending) (head : Doc)
    (lines : List Bytes) (sheet : Sheet) :
    Text.stripEnd isPad (page.renderDoc indent style pending
        (.concat [head, .indent (.concat (lines.flatMap fun l => [.hardLine, .text l]))]) sheet).text =
      Text.stripEnd isPad (page.renderDoc indent style
        ((style, [.indent (.concat (lines.flatMap fun l => [.hardLine, .text l]))]) :: pending) head sheet).text ++
        lines.flatMap fun l => Byte.newline :: Text.stripEnd isPad (Bytes.spaces (indent + page.step) ++ l) :=
  stripEnd_renderAll_lines page (indent + page.step) style _ lines _

end Layout

namespace Print

open Table (Row)

theorem newline_notMem_commentText {c : Comment} (h : Byte.newline ∉ c.content) : Byte.newline ∉ commentText c := by
  have hpercent : Byte.newline ≠ Byte.percent := by decide
  have htrim : Byte.newline ∉ c.content.trimEnd isLineBlank := fun hmem =>
    h (List.mem_reverse.1 ((List.dropWhile_sublist _).mem (List.mem_reverse.1 hmem)))
  simp [commentText, hpercent, htrim]

/-- What stays on the line of the opening of a table: nothing, or the comment that is all of the first row. -/
inductive Headed (rows : List Row) : Bytes → List Row → Prop
  | bare : Headed rows [] rows
  | comment {row rest m c head} (eq : rows = row :: rest) (only : row.isComment = true) (own : row.comment = some m)
      (remark : m.comment? = some c) (text : head = commentText c ∨ head = Byte.space :: commentText c) :
      Headed rows head rest

theorem Headed.subset {rows rest : List Row} {head : Bytes} (h : Headed rows head rest) : rest ⊆ rows := by
  cases h with
  | bare => exact List.Subset.refl _
  | comment eq only own remark text => simp [eq]

theorem Headed.newline_notMem {rows rest : List Row} {head : Bytes} (h : Headed rows head rest)
    (hrows : ∀ row ∈ rows, row.OneLine) : Byte.newline ∉ head := by
  cases h with
  | bare => exact List.not_mem_nil
  | @comment row _ m c _ eq only own remark text =>
    have hrow := hrows row (by simp [eq])
    have htext := newline_notMem_commentText (hrow.comment m own c remark)
    have hspace : Byte.newline ≠ Byte.space := by decide
    rcases text with rfl | rfl <;> simp [htext, hspace]

/-- The comment on the line of the opening ends in no row separator. -/
theorem Headed.forall_rowSeparator {rows rest : List Row} {head : Bytes} (h : Headed rows head rest) :
    (∀ row ∈ rest, Byte.newline ∉ row.rowSeparator) ↔ ∀ row ∈ rows, Byte.newline ∉ row.rowSeparator := by
  cases h with
  | bare => rfl
  | @comment row _ _ _ _ eq only _ _ _ =>
    have hend : row.rowSeparator = [] := by simp_all [Row.isComment]
    simp [eq, hend]

theorem headed_of_tableHead? {rows : List Row} {c : Comment} (h : tableHead? rows = some c) :
    Headed rows ((if c.leading.isEmpty then [] else [Byte.space]) ++ commentText c) rows.tail := by
  unfold tableHead? at h
  split at h
  · next row rest =>
    split at h
    · next hrow =>
      obtain ⟨m, hm, hc⟩ := Option.bind_eq_some_iff.1 (Option.filter_eq_some_iff.1 h).1
      exact .comment rfl hrow hm hc (by split <;> simp)
    · cases h
  · cases h

/-- **An aligned table is written line by line**, behind what stays on the line of its opening. -/
theorem exists_renderDoc_tableDoc (page : Layout.Page) (indent : Nat) (style : Layout.Style)
    (pending : Layout.Pending) (sheet : Layout.Sheet) (measure : Bytes → Nat) (args content : List Node) :
    ∃ head rows columns, Headed (Row.split content) head rows ∧
      Text.stripEnd isPad (page.renderDoc indent style pending (tableDoc measure args content) sheet).text =
        Text.stripEnd isPad (sheet.text ++ head) ++ (Table.format measure columns rows).flatMap fun line =>
          Byte.newline :: Text.stripEnd isPad (Bytes.spaces (indent + page.step) ++ line) := by
  unfold tableDoc
  dsimp only
  generalize (if (columnSpec args).length = (Table.widestCells measure (Row.split content)).length then columnSpec args
    else []) = columns
  split
  · next c hc =>
    refine ⟨_, _, columns, headed_of_tableHead? hc, ?_⟩
    rw [Layout.stripEnd_renderDoc_lines, Layout.Page.renderDoc, Layout.Sheet.text_write]
  · refine ⟨[], _, columns, .bare, ?_⟩
    rw [Layout.stripEnd_renderDoc_lines, Layout.Page.renderDoc, List.append_nil]

end Print

/-- **The lines of an aligned table are lines, unless a row separator holds a newline.** This is true of every content
    that can be aligned in the tree of a document, with hints or without, and for all columns. What is printed of the
    table, behind the comment that stays on the line of the opening, are the lines of the rows, each behind a line break
    and the indentation of the table. -/
theorem Table.aligned_rows_are_lines {r : Registry} {src : Bytes} {tree t : Node} {span : Span} {hints : Hints}
    {shape : Shape} {args content : List Node} (hdocument : Parse.document r src = .ok tree)
    (ht : t = tree ∨ t = tree.annotate r) (hbranch : .branch span hints shape args content ∈ t.preorder)
    (hgrid : isGrid (Row.split content) = true) (measure : Bytes → Nat) :
    (∀ columns, (∀ line ∈ format measure columns (Row.split content), Byte.newline ∉ line) ↔
      ∀ row ∈ Row.split content, Byte.newline ∉ row.rowSeparator) ∧
    ∀ (page : Layout.Page) (indent : Nat) (style : Layout.Style) (pending : Layout.Pending) (sheet : Layout.Sheet),
      ∃ head rows columns, Print.Headed (Row.split content) head rows ∧ Byte.newline ∉ head ∧
        Text.stripEnd isPad
            (page.renderDoc indent style pending (Print.tableDoc measure args content) sheet).text =
          Text.stripEnd isPad (sheet.text ++ head) ++ (format measure columns rows).flatMap (fun line =>
            Byte.newline :: Text.stripEnd isPad (Bytes.spaces (indent + page.step) ++ line)) ∧
        ((∀ line ∈ format measure columns rows, Byte.newline ∉ line) ↔
          ∀ row ∈ Row.split content, Byte.newline ∉ row.rowSeparator) := by
  have htree := (Parse.oneLine_of_document hdocument ht).of_mem_preorder hbranch
  have hrows := oneLine_of_isGrid hgrid fun n hn => ((Node.each_branch_iff.1 htree).2.2.of_mem hn).self
  have hlines : ∀ columns rows, (∀ row ∈ rows, Row.OneLine row) →
      ((∀ line ∈ format measure columns rows, Byte.newline ∉ line) ↔
        ∀ row ∈ rows, Byte.newline ∉ row.rowSeparator) := by
    intro columns rows hrows
    have hiff := not_congr (newline_mem_format_iff measure columns hrows)
    simpa using hiff
  refine ⟨fun columns => hlines columns _ hrows, fun page indent style pending sheet => ?_⟩
  obtain ⟨head, rows, columns, hheaded, heq⟩ :=
    Print.exists_renderDoc_tableDoc page indent style pending sheet measure args content
  refine ⟨head, rows, columns, hheaded, hheaded.newline_notMem hrows, heq, ?_⟩
  rw [hlines columns rows fun row hrow => hrows row (hheaded.subset hrow), hheaded.forall_rowSeparator]

/-- Whether content can be aligned although a row ends in a text with a newline. -/
def Table.hasBrokenRow : Node → Bool
  | .branch _ _ _ _ content =>
    isGrid (Row.split content) && (Row.split content).any fun row => row.rowSeparator.hasNewline
  | .leaf _ _ _ => false

/-- The table can be aligned, and the line of its row is two lines: the newline stands in the argument of what ends the
    row. -/
theorem Table.aligned_rows_are_lines_argument :
    ∃ tree span hints shape args content,
      Parse.document .builtin (bytes "\\begin\x7btabular\x7d\x7bl\x7da\\\\[2\npt]\\end\x7btabular\x7d") = .ok tree ∧
      .branch span hints shape args content ∈ tree.preorder ∧ isGrid (Row.split content) = true ∧
      ∃ line ∈ format List.length [] (Row.split content), Byte.newline ∈ line := by
  have hfind : (Parse.document .builtin (bytes
      "\\begin\x7btabular\x7d\x7bl\x7da\\\\[2\npt]\\end\x7btabular\x7d")).toOption.any
        (fun tree => tree.preorder.any hasBrokenRow) = true := by decide +kernel
  obtain ⟨tree, hdocument⟩ := Parse.exists_ok_of_isOk (x := Parse.document .builtin (bytes
    "\\begin\x7btabular\x7d\x7bl\x7da\\\\[2\npt]\\end\x7btabular\x7d")) (by decide +kernel)
  have hany : tree.preorder.any hasBrokenRow = true := by
    rw [hdocument] at hfind
    exact hfind
  obtain ⟨n, hn, hbroken⟩ := List.any_eq_true.1 hany
  cases n with
  | leaf => cases hbroken
  | branch span hints shape args content =>
    obtain ⟨hgrid, hrow⟩ := Bool.and_eq_true_iff.1 hbroken
    have hiff := (aligned_rows_are_lines hdocument (.inl rfl) hn hgrid List.length).1 []
    refine ⟨tree, span, hints, shape, args, content, hdocument, hn, hgrid, ?_⟩
    by_contra hnone
    have hrows := hiff.1 fun line hline hnewline => hnone ⟨line, hline, hnewline⟩
    obtain ⟨row, hmem, hnewline⟩ := List.any_eq_true.1 hrow
    exact hrows row hmem (by simpa [Bytes.hasNewline] using hnewline)

end TexTidy
