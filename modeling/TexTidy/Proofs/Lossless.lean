import Mathlib.Data.List.TakeWhile
import TexTidy.Format
import TexTidy.Proofs.RoundTrip
import TexTidy.Proofs.TableInk

/-!
# TexTidy.Proofs.Lossless

Formatting loses, adds and reorders nothing but white space. The ink of the output is the ink of the
source, for every registry, width, indentation and measure.

The layout of a sound tree has the ink of the raw text of the tree (`ink_nodeDoc`). That is one induction
over trees, with a lemma for each kind of part that is printed in its own way: comments, raw groups,
blocks, tables, and the steps between neighbours. Rendering keeps the ink (`ink_render`), and the raw text
of a parsed tree is the source.

The empty output needs an argument of its own: it is not enough that it has no ink.
-/

namespace TexTidy.Print

open Bytes (ink)
open Layout (Doc)
open Node (Each All Sound rawAll)

/-! ## parts -/

theorem ink_commentText (c : Comment) : ink (commentText c) = ink (Byte.percent :: c.content) := by
  rw [commentText, Bytes.ink_cons, Bytes.ink_trimEnd fun _ => Bytes.isBlank_of_isLineBlank,
    ← Bytes.ink_cons]

/-- The space that may stand before a comment is no ink. -/
theorem ink_shift (leading : Bytes) (s : Bytes) :
    ink ((if leading.isEmpty then [] else [Byte.space]) ++ s) = ink s := by
  split <;> simp

theorem inkOf_commentSteps (c : Comment) (before : Bool) (next : Option Node) :
    inkOf (commentSteps c before next) = ink (Byte.percent :: c.content) := by
  have htail : inkOf (if next.isSome && !before then [.separator .forced] else []) = [] := by
    split <;> rfl
  unfold commentSteps
  dsimp only
  rw [inkOf_append, htail, List.append_nil]
  split
  · simp only [inkOf_cons, inkOf_nil, Step.ink, Doc.ink, List.append_nil]
    rw [ink_shift, ink_commentText]
  · simp [Step.ink, Doc.ink, ink_commentText]

theorem inkOf_formulaBreak (mode : Mode) (previous : Option Node) (n : Node) :
    inkOf (formulaBreak mode previous n) = [] := by
  unfold formulaBreak
  split
  · split <;> rfl
  · rfl

/-- Raw text that is laid out line by line keeps its ink. -/
theorem inkAll_rawDocs (afterBreak : Bool) (pieces : List Bytes) :
    Doc.inkAll (rawDocs afterBreak pieces) = ink pieces.flatten := by
  induction pieces generalizing afterBreak with
  | nil => rfl
  | cons piece pieces ih =>
    rw [rawDocs, List.flatten_cons, Bytes.ink_append]
    split
    · next hbreak =>
      rw [hbreak, Doc.inkAll, ih]
      rfl
    · split
      · next hblank =>
        have hpiece : ink piece = [] := Bytes.ink_eq_nil_iff.2 fun b hb =>
          Bytes.isBlank_of_isLineBlank
            (List.all_eq_true.1 (Bool.and_eq_true_iff.1 hblank).2 b hb)
        rw [ih, hpiece, List.nil_append]
      · rw [Doc.inkAll, ih, Doc.ink]

/-- A block has the ink of its opening, its content and its closing. -/
theorem ink_block (opening closing body : Doc) {content : List Node} (h : All Sound content)
    (hbody : body.ink = ink (rawAll content)) :
    (block opening closing content body).ink = opening.ink ++ ink (rawAll content) ++ closing.ink := by
  unfold block
  split
  · next htrim =>
    simp [Doc.ink, Doc.inkAll, Node.ink_rawAll_of_trim_eq_nil h htrim]
  · dsimp only
    split <;> simp [Doc.ink, Doc.inkAll, hbody]

theorem ink_delimited (opening closing : Bytes) (content : List Node) (body : Doc) :
    (delimited opening closing content body).ink = ink opening ++ body.ink ++ ink closing := by
  unfold delimited
  dsimp only
  split <;> simp [Doc.ink, Doc.inkAll]

/-! ## tables -/

theorem inkAll_lineDocs (lines : List Bytes) :
    Doc.inkAll (lines.flatMap fun l => [.hardLine, .text l]) = ink lines.flatten := by
  induction lines with
  | nil => rfl
  | cons l lines ih => simp [Doc.inkAll, Doc.ink, ih]

/-- A row that is only a comment has the ink of the comment. -/
theorem ink_of_isComment {row : Table.Row} {c : Comment} (h : row.isComment = true)
    (hc : row.comment.bind Node.comment? = some c) : row.ink = ink (Byte.percent :: c.content) := by
  simp only [Table.Row.isComment, Bool.and_eq_true, List.isEmpty_iff] at h
  obtain ⟨⟨⟨⟨⟨-, hrules⟩, hseps⟩, hend⟩, hone⟩, hblank⟩ := h
  have hweave : Table.weave row.cells row.separators = [] :=
    Table.Grid.weave_of_blank (by simp [hseps, hone, hblank])
  simp [Table.Row.ink, Table.Row.commentInk, hrules, hend, hweave, hc]

/-- The comment at the head of a table is the first row. -/
theorem ink_of_tableHead? {rows : List Table.Row} {c : Comment} (h : tableHead? rows = some c) :
    (rows.map Table.Row.ink).flatten =
      ink (Byte.percent :: c.content) ++ (rows.tail.map Table.Row.ink).flatten := by
  unfold tableHead? at h
  split at h
  · next row rest =>
    split at h
    · next hrow =>
      obtain ⟨hc, -⟩ := Option.filter_eq_some_iff.1 h
      simp [ink_of_isComment hrow hc]
    · cases h
  · cases h

/-- A table has the ink of its content. -/
theorem ink_tableDoc (measure : Bytes → Nat) (args : List Node) {content : List Node}
    (h : All Sound content) (hgrid : Table.isGrid (Table.Row.split content) = true) :
    (tableDoc measure args content).ink = ink (rawAll content) := by
  have hwritable := Table.writable_split h hgrid
  rw [← Table.Row.ink_split h]
  unfold tableDoc
  dsimp only
  split
  · next c hhead =>
    have htail : Table.Writable (Table.Row.split content).tail :=
      fun row hrow => hwritable row (List.mem_of_mem_tail hrow)
    rw [ink_of_tableHead? hhead]
    simp only [Doc.ink, Doc.inkAll, List.append_nil]
    rw [ink_shift, ink_commentText, inkAll_lineDocs, Table.ink_format measure _ htail]
  · simp only [Doc.ink, Doc.inkAll, List.append_nil, List.nil_append]
    rw [inkAll_lineDocs, Table.ink_format measure _ hwritable]

/-- The lines of an environment, in columns or not, have the ink of what they show. -/
theorem ink_environment (measure : Bytes → Nat) (hints : Hints) (opening closing body : Doc)
    (args : List Node) {content : List Node} (h : All Sound content)
    (hbody : body.ink = ink (rawAll content)) :
    (if isTable hints content then Doc.concat [opening, tableDoc measure args content, .hardLine, closing]
      else block opening closing content body).ink =
      opening.ink ++ ink (rawAll content) ++ closing.ink := by
  split
  · next htable =>
    simp [Doc.ink, Doc.inkAll, ink_tableDoc measure args h (Bool.and_eq_true_iff.1 htable).2]
  · exact ink_block opening closing body h hbody

/-! ## trees -/

theorem ink_raw_branch (s : Span) (h : Hints) (shape : Shape) (args content : List Node) :
    ink (Node.branch s h shape args content).raw =
      ink shape.opening ++ ink (rawAll args) ++ ink (rawAll content) ++ ink shape.closing := by
  simp [Node.raw_branch]

/-- The steps of a node have the ink of the node, if its own steps have it. -/
theorem inkOf_nodeSteps (mode : Mode) (preamble : Bool) (previous next : Option Node) {n : Node}
    {own : List Step} (hn : n.Sound) (hown : inkOf own = ink n.raw) :
    inkOf (nodeSteps mode preamble previous next n own) = ink n.raw := by
  unfold nodeSteps
  split
  · rw [Node.ink_raw_of_isSpace hn rfl]
    rfl
  · rw [Node.ink_raw_of_isSpace hn rfl]
    rfl
  · rw [inkOf_commentSteps, Node.ink_raw_of_comment? hn rfl]
  · have hbefore : ∀ p : Bool, inkOf (if p then [Step.unlessEmpty .forced] else []) = [] := by
      intro p
      cases p <;> rfl
    have hbreak : inkOf (if isInline mode n then [] else formulaBreak mode previous n) = [] := by
      split
      · rfl
      · exact inkOf_formulaBreak mode previous n
    rw [inkOf_append, inkOf_append, hbefore, hbreak, hown]
    rfl

theorem isSome_command?_of_isInline {mode : Mode} {n : Node} (h : isInline mode n = true) :
    n.command?.isSome = true := by
  simp only [isInline, Bool.and_eq_true] at h
  exact h.1.1

mutual

/-- **The layout of a sound node has the ink of its raw text.** -/
theorem ink_nodeDoc (measure : Bytes → Nat) (mode : Mode) :
    ∀ n : Node, Each Sound n → (nodeDoc measure mode n).ink = ink n.raw
  | .leaf _ _ (.text content), _ => by
    simp [nodeDoc, Doc.ink, Node.raw_leaf, Leaf.raw, Leaf.rawPieces]
  | .leaf _ _ (.space _), h => by
    rw [Node.ink_raw_of_isSpace h.self rfl]
    rfl
  | .leaf _ _ (.parbreak _), h => by
    rw [Node.ink_raw_of_isSpace h.self rfl]
    rfl
  | .leaf _ _ (.comment c before), h => by
    rw [nodeDoc, ink_paragraph, inkOf_commentSteps, Node.ink_raw_of_comment? h.self rfl]
  | .leaf _ _ (.verb escape name delimiter content), _ => by
    simp [nodeDoc, Doc.ink, Node.raw_leaf, Leaf.raw, Leaf.rawPieces]
  | .leaf _ _ (.foreign _ stand), _ => by
    cases stand <;> simp [nodeDoc, Doc.ink, Node.raw_leaf, Leaf.raw, Leaf.rawPieces]
  | .leaf _ _ .missing, _ => rfl
  | .branch _ _ .document args content, h => by
    obtain ⟨hargs, -, hcontent⟩ := Node.each_branch_iff.1 h
    rw [nodeDoc, ink_paragraph, inkOf_flow _ _ _ _ _ _ content hcontent, ink_raw_branch,
      show args = [] from hargs]
    simp [Shape.opening, Shape.closing]
  | .branch s hints .group args content, _ => by
    rw [nodeDoc, Doc.ink, inkAll_rawDocs, Node.raw]
  | .branch _ _ (.argument space opening closing) args content, h => by
    obtain ⟨⟨hargs, hspace, hclosing⟩, -, hcontent⟩ := Node.each_branch_iff.1 h
    have hbody := inkOf_flow measure mode false false false none content hcontent
    rw [nodeDoc, ink_raw_branch, hargs]
    split
    · next hopening =>
      have hopening := List.isEmpty_iff.1 hopening
      split <;> simp [Doc.ink, Doc.inkAll, ink_paragraph, hbody, Shape.opening, Shape.closing, hspace,
        hopening, hclosing hopening]
    · simp [ink_delimited, ink_paragraph, hbody, Shape.opening, Shape.closing, hspace]
  | .branch _ hints (.command escape name) args content, h => by
    obtain ⟨hcontent, hargs, -⟩ := Node.each_branch_iff.1 h
    have hdocs := inkAll_nodeDocs measure (argumentMode hints mode) args hargs
    rw [nodeDoc, ink_raw_branch, show content = [] from hcontent]
    split <;> simp [Doc.ink, Doc.inkAll, hdocs, Shape.opening, Shape.closing]
  | .branch _ hints (.environment name) args content, h => by
    obtain ⟨-, hargs, hcontent⟩ := Node.each_branch_iff.1 h
    have hbody := inkOf_flow measure mode false true false none content hcontent
    have hdocs := inkAll_nodeDocs measure mode args hargs
    rw [nodeDoc, ink_raw_branch]
    rw [ink_environment _ _ _ _ _ _ hcontent (by rw [ink_paragraph, hbody])]
    simp [Doc.ink, Doc.inkAll, hdocs, Shape.opening, Shape.closing]
  | .branch _ hints (.mathEnvironment name) args content, h => by
    obtain ⟨-, hargs, hcontent⟩ := Node.each_branch_iff.1 h
    have hbody := inkOf_flow measure .math false true false none content hcontent
    have hdocs := inkAll_nodeDocs measure .math args hargs
    rw [nodeDoc, ink_raw_branch]
    rw [ink_environment _ _ _ _ _ _ hcontent (by rw [ink_paragraph, hbody])]
    simp [Doc.ink, Doc.inkAll, hdocs, Shape.opening, Shape.closing]
  | .branch _ _ (.verbatim name body) args content, h => by
    obtain ⟨hcontent, hargs, -⟩ := Node.each_branch_iff.1 h
    have hdocs := inkAll_nodeDocs measure mode args hargs
    rw [nodeDoc, ink_raw_branch, show content = [] from hcontent]
    simp [Doc.ink, Doc.inkAll, hdocs, Shape.opening, Shape.closing]
  | .branch _ _ (.displayMath opening closing) args content, h => by
    obtain ⟨hargs, -, hcontent⟩ := Node.each_branch_iff.1 h
    have hbody := inkOf_flow measure .math false true false none content hcontent
    rw [nodeDoc, ink_raw_branch, show args = [] from hargs,
      ink_block _ _ _ hcontent (by rw [ink_paragraph, hbody])]
    simp [Doc.ink, Shape.opening, Shape.closing]
  | .branch _ _ (.inlineMath opening closing) args content, h => by
    obtain ⟨⟨hargs, hdollar⟩, -, hcontent⟩ := Node.each_branch_iff.1 h
    have hbody := inkOf_flow measure .math false false false none content hcontent
    rw [nodeDoc, ink_raw_branch, hargs]
    split
    · next hplain =>
      have hspace : ∀ n ∈ content, n.isSpace = true := fun n hn =>
        Node.isSpace_of_isPlainSpace (List.all_eq_true.1 hplain n hn)
      rw [Node.ink_rawAll_of_isSpace hcontent hspace, Doc.ink]
      split
      · next hopening =>
        rw [hopening, Shape.opening, Shape.closing, hdollar hopening]
        decide
      · simp [Shape.opening, Shape.closing]
    · simp [ink_delimited, ink_paragraph, hbody, Shape.opening, Shape.closing]

theorem inkAll_nodeDocs (measure : Bytes → Nat) (mode : Mode) :
    ∀ ns : List Node, All Sound ns → Doc.inkAll (nodeDocs measure mode ns) = ink (rawAll ns)
  | [], _ => rfl
  | n :: ns, h => by
    obtain ⟨hn, hns⟩ := Node.all_cons_iff.1 h
    rw [nodeDocs, Doc.inkAll, ink_nodeDoc measure mode n hn, inkAll_nodeDocs measure mode ns hns,
      Node.rawAll_cons, Bytes.ink_append]

/-- The steps of a sequence have its ink: what is trimmed is white space. -/
theorem inkOf_flow (measure : Bytes → Nat) (mode : Mode) (preamble trim inked : Bool)
    (previous : Option Node) : ∀ ns : List Node, All Sound ns →
      inkOf (flow measure mode preamble trim inked previous ns) = ink (rawAll ns)
  | [], _ => rfl
  | n :: ns, h => by
    obtain ⟨hn, hns⟩ := Node.all_cons_iff.1 h
    rw [flow, inkOf_append, inkOf_flow measure mode preamble trim _ (some n) ns hns,
      Node.rawAll_cons, Bytes.ink_append]
    congr 1
    split
    · next htrim =>
      simp only [Bool.and_eq_true] at htrim
      rw [Node.ink_raw_of_isSpace hn.self htrim.1.2]
      rfl
    · apply inkOf_nodeSteps _ _ _ _ hn.self
      split
      · next hinline => exact inkOf_inlineSteps measure mode n hn (isSome_command?_of_isInline hinline)
      · simp [Step.ink, ink_nodeDoc measure mode n hn]

theorem inkOf_inlineSteps (measure : Bytes → Nat) (mode : Mode) : ∀ n : Node, Each Sound n →
    n.command?.isSome = true → inkOf (inlineSteps measure mode n) = ink n.raw
  | .branch _ hints (.command escape name) args content, h, _ => by
    obtain ⟨hcontent, hargs, -⟩ := Node.each_branch_iff.1 h
    have hsteps := inkOf_argumentSteps measure (argumentMode hints mode) args hargs
    rw [ink_raw_branch, show content = [] from hcontent]
    simp [inlineSteps, Step.ink, Doc.ink, hsteps, Shape.opening, Shape.closing]

theorem inkOf_argumentSteps (measure : Bytes → Nat) (mode : Mode) : ∀ ns : List Node,
    All Sound ns → inkOf (argumentSteps measure mode ns) = ink (rawAll ns)
  | [], _ => rfl
  | n :: ns, h => by
    obtain ⟨hn, hns⟩ := Node.all_cons_iff.1 h
    rw [argumentSteps, inkOf_append, inkOf_argumentSteps measure mode ns hns, Node.rawAll_cons,
      Bytes.ink_append]
    congr 1
    split
    · next hdelimited => exact inkOf_delimitedSteps measure mode n hn hdelimited
    · simp [Step.ink, ink_nodeDoc measure mode n hn]

theorem inkOf_delimitedSteps (measure : Bytes → Nat) (mode : Mode) : ∀ n : Node, Each Sound n →
    isDelimitedArgument n = true → inkOf (delimitedSteps measure mode n) = ink n.raw
  | .branch _ _ (.argument space opening closing) args content, h, _ => by
    obtain ⟨⟨hargs, hspace, -⟩, -, hcontent⟩ := Node.each_branch_iff.1 h
    have hbody := inkOf_flow measure mode false false false none content hcontent
    have hbreak : inkOf (if endsInComment content then [.separator .forced] else []) = [] := by
      split <;> rfl
    rw [ink_raw_branch, hargs]
    simp [delimitedSteps, Step.ink, Doc.ink, hbody, hbreak, hspace, Shape.opening, Shape.closing]

end

end TexTidy.Print

namespace TexTidy

open Bytes (ink)

/-! ## sources of nothing but white space -/

/-- Whether a token is white space or the end of the source. -/
def Token.Kind.isWhite : Token.Kind → Bool
  | .endOfInput | .space _ | .parbreak _ => true
  | _ => false

/-- The token at white space that nothing follows is white space. -/
theorem Token.isWhite_of_scan? {inked : Bool} {s : Bytes} {k : Kind} (hs : ink s = [])
    (h : scan? inked s = some k) : k.isWhite = true := by
  cases s with
  | nil =>
    cases h
    rfl
  | cons c s =>
    have hblank := Bytes.ink_eq_nil_iff.1 hs
    have hrest : (c :: s).dropWhile isBlank = [] := List.dropWhile_eq_nil_iff.2 hblank
    have hscan : scan? inked (c :: s) = some (scanBlank inked (c :: s)) := by
      have hc := hblank c (by simp)
      simp only [isBlank, Bool.or_eq_true, beq_iff_eq] at hc
      rcases hc with ((rfl | rfl) | rfl) | rfl <;> rfl
    -- No comment can follow the blanks, as nothing does.
    rw [hscan, scanBlank, hrest] at h
    cases h
    split
    · next hpercent => cases hpercent.2
    · split <;> rfl

theorem Cursor.isWhite_of_token {c d : Cursor} {t : Token} (h : c.token = .ok (t, d))
    (hc : ink c.rest = []) : t.kind.isWhite = true := by
  unfold Cursor.token at h
  split at h
  · next hk =>
    cases h
    exact Token.isWhite_of_scan? hc hk
  · cases h

namespace Parse

/-- What is read from white space is white space. -/
def Judgement.White : Judgement → Prop
  | .sequence _ _ c s => ink c.rest = [] → ∀ n ∈ s.nodes, n.isSpace = true
  | .item _ c n _ => ink c.rest = [] → n.isSpace = true
  | .arguments _ _ _ _ _ => True

/-- A node that begins with a token other than white space is not read from white space. -/
theorem white_item {mode : Mode} {c d e : Cursor} {t : Token} (n : Node) (token : c.token = .ok (t, d))
    (hk : t.kind.isWhite = false) : (Judgement.item mode c n e).White := by
  intro hc
  rw [Cursor.isWhite_of_token token hc] at hk
  cases hk

theorem isSpace_of_plainLeaf? {mode : Mode} {k : Token.Kind} {l : Leaf} (s : Span) (h : Hints)
    (hk : k.isWhite = true) (hl : plainLeaf? mode k = some l) : (Node.leaf s h l).isSpace = true := by
  cases k <;> cases hk <;> cases hl <;> rfl

theorem isWhite_of_formula? {k : Token.Kind} {closer : Closer} {shape : Shape}
    (h : formula? k = some (closer, shape)) : k.isWhite = false := by
  cases k <;> first | rfl | cases h

/-- White space is linked to what follows as it is. -/
theorem link_of_isSpace {n : Node} (h : n.isSpace = true) (ns : List Node) : link n ns = n :: ns := by
  unfold link
  split
  · cases h
  · rfl

theorem Derives.white {r : Registry} {j : Judgement} (h : Derives r j) : j.White := by
  induction h with
  | stop token closed => exact fun _ n hn => by cases hn
  | next token pass more head rest ihHead ihRest =>
    intro hc
    have hn := ihHead hc
    rw [head.moves.1.text, Bytes.ink_append, List.append_eq_nil_iff] at hc
    intro m hm
    rw [link_of_isSpace hn, List.mem_cons] at hm
    rcases hm with rfl | hm
    · exact hn
    · exact ihRest hc.2 m hm
  | leaf token plain => exact fun hc => isSpace_of_plainLeaf? _ _ (Cursor.isWhite_of_token token hc) plain
  | script token kind => exact white_item _ token (by rw [kind]; rfl)
  | group token kind => exact white_item _ token (by rw [kind]; rfl)
  | formula token kind => exact white_item _ token (isWhite_of_formula? kind)
  | dollar token kind => exact white_item _ token (by rw [kind]; rfl)
  | emptyDollars token kind => exact white_item _ token (by rw [kind]; rfl)
  | environment token kind => exact white_item _ token (by rw [kind]; rfl)
  | verbatim token kind => exact white_item _ token (by rw [kind]; rfl)
  | verb token kind => exact white_item _ token (by rw [kind]; rfl)
  | command token kind => exact white_item _ token (by rw [kind]; rfl)
  | done | absent | star | optional | braced | bareCommand | bareCharacter => trivial

end Parse

/-- White space stays white space when it is annotated. -/
theorem Node.isSpace_annotateAll (r : Registry) {ns : List Node} (h : ∀ n ∈ ns, n.isSpace = true) :
    ∀ n ∈ annotateAll r ns, n.isSpace = true := by
  induction ns with
  | nil => exact h
  | cons n ns ih =>
    obtain ⟨hn, hns⟩ := List.forall_mem_cons.1 h
    rw [annotateAll]
    refine List.forall_mem_cons.2 ⟨?_, ih hns⟩
    cases n with
    | leaf s hints l => cases l <;> exact hn
    | branch s hints shape args content => cases hn

/-- White space alone is trimmed to nothing. -/
theorem Print.flow_of_isSpace (measure : Bytes → Nat) (mode : Mode) (preamble inked : Bool)
    (previous : Option Node) {ns : List Node} (h : ∀ n ∈ ns, n.isSpace = true) :
    flow measure mode preamble true inked previous ns = [] := by
  induction ns generalizing inked previous with
  | nil => rfl
  | cons n ns ih =>
    obtain ⟨hn, hns⟩ := List.forall_mem_cons.1 h
    rw [flow, hn, List.all_eq_true.2 hns, if_pos (by simp)]
    exact ih _ (some n) hns

/-! ## the whole program -/

namespace Format

theorem ink_endLine (s : Bytes) : ink (endLine s) = ink s := by
  have hbody : ink (s.trimEnd (· == Byte.newline)) = ink s := Bytes.ink_trimEnd (by simp [isBlank]) s
  unfold endLine
  dsimp only
  split
  · next hempty => rw [← hbody, List.isEmpty_iff.1 hempty]
  · rw [Bytes.ink_append, hbody]
    exact List.append_nil _

/-- What is not empty ends in exactly one newline. -/
theorem endLine_eq_concat {s : Bytes} (h : endLine s ≠ []) :
    ∃ body, endLine s = body ++ [Byte.newline] ∧ body.getLast? ≠ some Byte.newline := by
  unfold endLine at *
  dsimp only at *
  split
  · next hempty => simp [hempty] at h
  · refine ⟨_, rfl, fun hlast => ?_⟩
    have hhead := List.head?_dropWhile_not (· == Byte.newline) s.reverse
    rw [Bytes.trimEnd, List.getLast?_reverse] at hlast
    rw [hlast] at hhead
    cases hhead

theorem endLine_concat_newline (s : Bytes) : endLine (s ++ [Byte.newline]) = endLine s := by
  rw [endLine, endLine, Bytes.trimEnd_append s (by simp)]

theorem endLine_concat {b : UInt8} (hb : b ≠ Byte.newline) (s : Bytes) :
    endLine (s ++ [b]) = s ++ [b] ++ [Byte.newline] := by
  have hkept : (b == Byte.newline) = false := by simpa using hb
  simp [endLine, Bytes.trimEnd, hkept]

/-- What is written for a source is written for the tree of the source. -/
theorem exists_tree_of_format {options : Options} {src out : Bytes} (h : format options src = .ok out) :
    ∃ tree, Parse.document options.registry src = .ok tree ∧
      out = endLine ((tree.annotate options.registry).print
        (pageOf options.measure options.width options.indent)) := by
  unfold format run at h
  cases htree : Parse.document options.registry src with
  | error e =>
    rw [htree] at h
    cases h
  | ok tree =>
    rw [htree] at h
    cases h
    exact ⟨tree, rfl, rfl⟩

/-- The output for a source has its ink. -/
theorem ink_print_annotate {r : Registry} {src : Bytes} {tree : Node} (page : Layout.Page)
    (h : Parse.document r src = .ok tree) : ink ((tree.annotate r).print page) = ink src := by
  have hsound := Node.each_sound_annotate r tree (Parse.sound_of_document h)
  have hraw : (tree.annotate r).raw = src := by
    obtain ⟨body, hbody, rfl⟩ := Parse.derives_of_document h
    rw [Node.raw, Node.rawPieces_annotate, ← Node.raw, Node.raw_branch, hbody.rawAll_document]
    simp [Shape.opening, Shape.closing]
  rw [Node.print, Layout.Page.ink_render, Print.doc, Print.ink_nodeDoc _ _ _ hsound, hraw]

/-- Nothing is written for white space. -/
theorem print_annotate_of_blank {r : Registry} {src : Bytes} {tree : Node} (page : Layout.Page)
    (h : Parse.document r src = .ok tree) (hsrc : ∀ b ∈ src, isBlank b = true) :
    (tree.annotate r).print page = [] := by
  obtain ⟨body, hbody, rfl⟩ := Parse.derives_of_document h
  have hspace := Node.isSpace_annotateAll r (hbody.white (Bytes.ink_eq_nil_iff.2 hsrc))
  rw [Node.print, Print.doc, Node.annotate, Print.nodeDoc, Print.flow_of_isSpace _ _ _ _ _ hspace]
  rfl

/-- **Formatting loses nothing.** The output has the ink of the source. It is empty exactly if the source
    is white space, and otherwise ends in exactly one newline. -/
theorem format_keeps_ink {options : Options} {src out : Bytes} (h : format options src = .ok out) :
    ink out = ink src ∧ (out = [] ↔ ∀ b ∈ src, isBlank b = true) ∧
      (out ≠ [] → ∃ body, out = body ++ [Byte.newline] ∧ body.getLast? ≠ some Byte.newline) := by
  obtain ⟨tree, htree, rfl⟩ := exists_tree_of_format h
  have hink := (ink_endLine _).trans
    (ink_print_annotate (pageOf options.measure options.width options.indent) htree)
  refine ⟨hink, ⟨fun hout => ?_, fun hsrc => ?_⟩, endLine_eq_concat⟩
  · rw [hout] at hink
    exact Bytes.ink_eq_nil_iff.1 hink.symm
  · rw [print_annotate_of_blank _ htree hsrc]
    rfl

/-- A table with a rule, a row that is not closed and a comment, next to a formula of blanks. -/
theorem format_keeps_ink_table :
    ∃ out, format {} (bytes
        "\\begin\x7btabular\x7d% t\n a & b \\\\ \\hline c\n\\end\x7btabular\x7d\r\n$ \t$") = .ok out ∧
      ink out = bytes "\\begin\x7btabular\x7d%ta&b\\\\\\hlinec\\end\x7btabular\x7d$$" := by
  obtain ⟨out, hout⟩ := Parse.exists_ok_of_isOk (x := format {} (bytes
    "\\begin\x7btabular\x7d% t\n a & b \\\\ \\hline c\n\\end\x7btabular\x7d\r\n$ \t$")) (by decide +kernel)
  exact ⟨out, hout, (format_keeps_ink hout).1.trans (by decide +kernel)⟩

end Format

end TexTidy
