import TexTidy.Proofs.Reflow

/-!
# TexTidy.Proofs.NormalForm

The tree of a document is in a lexical normal form. White space comes in runs, so that no two nodes of white space
stand side by side, and a run with two newlines is a paragraph break. A comment is one line. Where that line ends the
comment takes the line break with it, or the node behind the comment begins with the line break, or there is no
further line.

`Node.Normal` says this of a node and the sequence it holds, and `Derives.normal` shows it of whatever is read. The
source does not end inside a container that is closed, so that a line break always follows a comment there
(`closes_of_fenced`).
-/

namespace TexTidy

open Bytes (ink)

/-! ## how a comment ends -/

/-- The text is the end of a line and the indentation of the next line. -/
def Indents (s : Bytes) : Prop :=
  ∃ pads, (∀ b ∈ pads, isPad b = true) ∧
    (s = Byte.newline :: pads ∨ s = Byte.carriageReturn :: Byte.newline :: pads)

namespace Token

theorem lineBreak_cases (s : Bytes) :
    lineBreak s = [] ∨ lineBreak s = [Byte.newline] ∨ lineBreak s = [Byte.carriageReturn, Byte.newline] := by
  unfold lineBreak
  split
  · exact .inr (.inr rfl)
  · split
    · exact .inr (.inl rfl)
    · exact .inl rfl

theorem commentSuffix_indents (s : Bytes) : commentSuffix s = [] ∨ Indents (commentSuffix s) := by
  unfold commentSuffix
  split
  · exact .inl rfl
  · next br hbr =>
    dsimp only
    split
    · exact .inl rfl
    · split
      · exact .inl rfl
      · refine .inr ⟨(s.drop (lineBreak s).length).takeWhile isPad, List.all_eq_true.1 List.all_takeWhile, ?_⟩
        rcases lineBreak_cases s with hnone | hline | hline
        · exact (hbr hnone).elim
        · exact .inl (by rw [hline]; rfl)
        · exact .inr (by rw [hline]; rfl)

end Token

/-- A comment takes the end of its line, or that is what follows it, or no line follows. -/
theorem Cursor.comment_ends {c d : Cursor} {t : Token} {comment : Comment} (token : c.token = .ok (t, d))
    (kind : t.kind = .comment comment) :
    Indents comment.suffix ∨ comment.suffix = [] ∧ BreaksLine d.rest ∨ Byte.newline ∉ c.rest := by
  obtain ⟨rest, htext, hrest, hsuffix, ⟨-, hfirst, hline⟩, hends⟩ := Cursor.exists_of_comment token kind
  rcases hends with ⟨-, hlast⟩ | hbreaks
  · have hpercent : Byte.newline ≠ Byte.percent := by decide
    exact .inr (.inr (by simp [htext, hfirst, hline, hlast, hpercent]))
  · rcases Token.commentSuffix_indents rest with hnone | hindents
    · rw [← hsuffix] at hnone
      rw [hrest, hnone] at hbreaks
      exact .inr (.inl ⟨hnone, hbreaks⟩)
    · exact .inl (hsuffix ▸ hindents)

/-! ## normal nodes -/

/-- White space is a run of blanks, and a comment is one line. -/
def Leaf.Normal : Leaf → Prop
  | .space raw => raw ≠ [] ∧ raw.all isBlank = true ∧ raw.count Byte.newline ≤ 1
  | .parbreak raw => raw.all isBlank = true ∧ 2 ≤ raw.count Byte.newline
  | .comment c _ => c.leading.all isBlank = true ∧ Byte.newline ∉ c.leading ∧ Byte.newline ∉ c.content
  | _ => True

/-- Where the line of a comment ends: in the comment, at the start of what is behind it, or with the source. The
    comment starts at an offset of the source. -/
def Comment.Ends (src : Bytes) (start : Nat) (behind : List Node) (c : Comment) : Prop :=
  Indents c.suffix ∨
    c.suffix = [] ∧ (∃ n ns, behind = n :: ns ∧ n.isSpace = true ∧ BreaksLine n.raw) ∨
    Byte.newline ∉ src.drop start

namespace Node

/-- How a node stands before others: white space before no white space, and a comment at the end of its line. A comment
    knows whether a paragraph break follows. -/
def Precedes (src : Bytes) (ns : List Node) : Node → Prop
  | .leaf span _ (.comment c before) =>
    (before = true ↔ ns.head?.any isParbreak = true) ∧ c.Ends src span.start ns
  | n => n.isSpace = true → ns.head?.any isSpace = false

/-- Every node of a sequence stands before the others as it should. -/
def InOrder (src : Bytes) : List Node → Prop
  | [] => True
  | n :: ns => n.Precedes src ns ∧ InOrder src ns

/-- The node is in normal form, and so is the sequence that it holds. -/
def Normal (src : Bytes) : Node → Prop
  | .leaf _ _ l => l.Normal
  | .branch _ _ _ _ content => InOrder src content

end Node

namespace Parse

open Node (All Each InOrder Normal all_nil all_cons each_leaf each_branch)

section

variable {r : Registry} {src : Bytes} {mode : Mode} {closer : Closer} {c d e : Cursor} {t : Token} {n : Node}
  {tail : Sequence}

/-- At the end of a line white space is read. -/
theorem Derives.exists_space_of_breaksLine (h : Derives r (.sequence mode closer c tail)) (hc : BreaksLine c.rest) :
    ∃ n ns, tail.nodes = n :: ns ∧ n.isSpace = true ∧ BreaksLine n.raw := by
  cases h with
  | stop token closed =>
    -- White space closes nothing.
    obtain ⟨raw, -, hk⟩ := Token.scan?_of_breaksLine hc (Cursor.scan?_of_token token)
    rcases closed with hnone | hend
    · rw [pass_white hk] at hnone
      cases hnone
    · rcases hk with hk | hk <;> cases hend.symm.trans hk
  | @next _ _ _ _ t _ _ _ _ token pass more head rest =>
    obtain ⟨raw, hraw, hk⟩ := Token.scan?_of_breaksLine hc (Cursor.scan?_of_token token)
    obtain ⟨l, hplain, hspace, hl⟩ : ∃ l, plainLeaf? mode t.kind = some l ∧
        (∀ span, (Node.leaf span {} l).isSpace = true) ∧ l.raw = raw := by
      rcases hk with hk | hk <;> rw [hk] <;> exact ⟨_, rfl, fun _ => rfl, by simp [Leaf.raw, Leaf.rawPieces]⟩
    rw [head.eq_leaf token hplain]
    exact ⟨_, _, link_of_isSpace (hspace _) _, hspace _, by rwa [Node.raw_leaf, hl]⟩

/-- Where there is no blank, no white space is read. -/
theorem Derives.head_isSpace (h : Derives r (.sequence mode closer c tail))
    (hc : c.rest.head?.any isBlank = false) : tail.nodes.head?.any Node.isSpace = false := by
  cases h with
  | stop token closed => rfl
  | @next _ _ _ _ _ _ n _ _ token pass more head rest =>
    have hsolid : n.isSpace = false := Bool.eq_false_iff.2 fun hspace => by
      rw [(pending_of_isSpace token head hspace).2.1] at hc
      cases hc
    unfold link
    split
    · rfl
    · exact hsolid

theorem Derives.inOrder_link (head : Derives r (.item mode c n e)) (token : c.token = .ok (t, d))
    (rest : Derives r (.sequence mode closer e tail)) (hc : c.At src) (h : InOrder src tail.nodes) :
    InOrder src (link n tail.nodes) := by
  unfold link
  split
  · next span hints comment before =>
    obtain ⟨hkind, rfl⟩ := kind_of_comment token head rfl
    have hspan : span = ⟨c.pos, d.pos⟩ := head.moves.2
    refine ⟨⟨?_, ?_⟩, h⟩
    · rw [head.comment_item.1, Bool.false_or]
      cases tail.nodes <;> rfl
    · rw [hspan]
      refine (Cursor.comment_ends token hkind).imp_right (Or.imp (fun hbreaks => ?_) fun hlast => ?_)
      · exact ⟨hbreaks.1, rest.exists_space_of_breaksLine hbreaks.2⟩
      · rwa [← hc.rest]
  · next hcode =>
    refine ⟨?_, h⟩
    unfold Node.Precedes
    split
    · exact absurd rfl (hcode _ _ _ _)
    · intro hspace
      obtain ⟨hpending, -⟩ := pending_of_isSpace token head hspace
      cases hpending with
      | one _ _ solid => exact rest.head_isSpace solid

theorem normal_plainLeaf? {l : Leaf} (token : c.token = .ok (t, d)) (plain : plainLeaf? mode t.kind = some l) :
    l.Normal := by
  have hscan := Cursor.scan?_of_token token
  rcases plainLeaf?_cases plain with rfl | ⟨raw, hk, rfl⟩ | ⟨raw, hk, rfl⟩ | ⟨comment, hk, rfl⟩
  · trivial
  · obtain ⟨rfl, -, hbreak⟩ := Token.white_of_scan? hscan (.inl hk)
    have hne := Cursor.raw_ne_nil_of_token token (by simp [hk])
    rw [hk] at hne hbreak
    refine ⟨hne, List.all_takeWhile, Nat.le_of_not_lt fun hcount => ?_⟩
    cases hbreak hcount
  · obtain ⟨rfl, -⟩ := Token.white_of_scan? hscan (.inr hk)
    rw [hk] at hscan
    exact ⟨List.all_takeWhile, Token.count_of_parbreak hscan⟩
  · obtain ⟨rest, -, -, -, ⟨hleading, hfirst, hline⟩, -⟩ := Cursor.exists_of_comment token hk
    exact ⟨List.all_eq_true.2 (Bytes.ink_eq_nil_iff.1 hleading), hfirst, hline⟩

end

section

variable {r : Registry} {src : Bytes} {span : Span} {shape : Shape} {args nodes : List Node}

/-- Whatever is read from a place of the source is in normal form. -/
def Judgement.Normal (src : Bytes) : Judgement → Prop
  | .sequence _ _ c s => c.At src → InOrder src s.nodes ∧ All (Node.Normal src) s.nodes
  | .item _ c n _ => c.At src → Each (Node.Normal src) n
  | .arguments _ _ c args _ => c.At src → All (Node.Normal src) args

/-- A branch without arguments is in normal form if its content is. -/
theorem normal_container (h : InOrder src nodes ∧ All (Normal src) nodes) :
    Each (Normal src) (.branch span {} shape [] nodes) :=
  each_branch h.1 (all_nil _) h.2

/-- A branch without content is in normal form if its arguments are. -/
theorem normal_command (h : All (Normal src) args) : Each (Normal src) (.branch span {} shape args []) :=
  each_branch trivial h (all_nil _)

/-- A branch of one node that is neither white space nor a comment. -/
theorem normal_single {n : Node} (hn : Each (Normal src) n) (hspace : n.isSpace = false) (hcode : n.comment? = none) :
    Each (Normal src) (.branch span {} shape [] [n]) := by
  refine normal_container ⟨⟨?_, trivial⟩, all_cons hn (all_nil _)⟩
  unfold Node.Precedes
  split
  · cases hcode
  · exact fun h => absurd h (by simp [hspace])

/-- **Whatever is read is in normal form.** -/
theorem Derives.normal {j : Judgement} (h : Derives r j) : j.Normal src := by
  induction h with
  | stop token closed => exact fun _ => ⟨trivial, all_nil _⟩
  | next token pass more head rest ihHead ihRest =>
    intro hc
    obtain ⟨horder, hall⟩ := ihRest (hc.reads head.moves.1)
    exact ⟨head.inOrder_link token rest hc horder, Node.all_link id (ihHead hc) hall⟩
  | leaf token plain => exact fun _ => each_leaf (normal_plainLeaf? token plain)
  | script token kind sign taken ih => exact fun hc => normal_command (ih (hc.reads (Cursor.token_reads token).1))
  | group token kind content closed ih =>
    exact fun hc => normal_container (ih (hc.reads (Cursor.token_reads token).1))
  | formula token kind content closed ih =>
    exact fun hc => normal_container (ih (hc.reads (Cursor.token_reads token).1))
  | dollar token kind content closed half ih =>
    exact fun hc => normal_container (ih (hc.reads (Cursor.token_reads token).1))
  | emptyDollars token kind => exact fun _ => normal_container ⟨trivial, all_nil _⟩
  | environment token kind opening nodes taken content closed closing ihTaken ihContent =>
    intro hc
    have he := (hc.reads (Cursor.token_reads token).1).reads (Cursor.environmentName_reads opening)
    obtain ⟨horder, hall⟩ := ihContent (he.reads taken.moves)
    exact each_branch horder (ihTaken he) hall
  | verbatim token kind opening raw taken content ih =>
    intro hc
    have he := (hc.reads (Cursor.token_reads token).1).reads (Cursor.environmentName_reads opening)
    exact normal_command (ih he)
  | verb token kind known free starred star_eq content => exact fun _ => each_leaf trivial
  | command token kind known free taken ih =>
    exact fun hc => normal_command (ih (hc.reads (Cursor.token_reads token).1))
  | done => exact fun _ => all_nil _
  | absent missing others ih => exact ih
  | star sign others ih =>
    exact fun hc => all_cons (normal_single (each_leaf trivial) rfl rfl) (ih (hc.reads (Cursor.peek_reads sign)))
  | optional sign content closed others ihContent ihOthers =>
    intro hc
    have hd := hc.reads (Cursor.peek_reads sign)
    exact all_cons (normal_container (ihContent hd)) (ihOthers (content.sequence_at hd))
  | @braced _ _ c _ _ _ sign content closed others ihContent ihOthers =>
    intro hc
    have hd := (hc.reads (Cursor.skipSpace_reads c)).reads (Cursor.peek_reads sign)
    exact all_cons (normal_container (ihContent hd)) (ihOthers (content.sequence_at hd))
  | @bareCommand _ _ c _ _ _ _ _ token kind known free others ih =>
    intro hc
    have hd := (hc.reads (Cursor.skipSpace_reads c)).reads (Cursor.token_reads token).1
    exact all_cons (normal_single (normal_command (all_nil _)) rfl rfl) (ih hd)
  | @bareCharacter _ _ c _ _ _ _ _ sign inert content others ih =>
    intro hc
    have hchar := Cursor.character_reads c.skipSpace.2
    rw [content] at hchar
    exact all_cons (normal_single (each_leaf trivial) rfl rfl)
      (ih ((hc.reads (Cursor.skipSpace_reads c)).reads hchar))

end

end Parse

/-! ## closed containers -/

namespace Node

/-- The end of a line stands behind every comment of a sequence. -/
def BreaksComments : List Node → Prop
  | [] => True
  | n :: ns => (∀ c, n.comment? = some c → BreaksLine (c.suffix ++ rawAll ns)) ∧ BreaksComments ns

/-- Comments of a container are followed by the end of a line inside it, so that a container with a comment anywhere in
    it has a newline. -/
def Closes : Node → Prop
  | .leaf _ _ _ => True
  | .branch span hints shape args content =>
    BreaksComments content ∧
      ((∃ m ∈ preorderAll args ++ preorderAll content, m.comment?.isSome = true) →
        Byte.newline ∈ (branch span hints shape args content).raw)

theorem breaksComments_of_linked {ns : List Node} (h : Linked true ns) : BreaksComments ns := by
  induction ns with
  | nil => trivial
  | cons n ns ih =>
    refine ⟨fun c hc => ?_, ih h.2⟩
    obtain ⟨span, hints, before, rfl⟩ := exists_of_comment? hc
    simpa [rawAll] using breaksLine_flatten (h.1.2 rfl)

theorem newline_mem_of_breaksLine {s : Bytes} (h : BreaksLine s) : Byte.newline ∈ s := by
  obtain ⟨y, rfl | rfl⟩ := h <;> simp

theorem newline_mem_of_breaksComments {ns : List Node} {n : Node} (h : BreaksComments ns) (hn : n ∈ ns)
    (hcomment : n.comment?.isSome = true) : Byte.newline ∈ rawAll ns := by
  induction ns with
  | nil => cases hn
  | cons m ns ih =>
    rw [rawAll_cons, List.mem_append]
    rcases List.mem_cons.1 hn with rfl | hn
    · obtain ⟨c, hc⟩ := Option.isSome_iff_exists.1 hcomment
      have hbreaks := newline_mem_of_breaksLine (h.1 c hc)
      obtain ⟨span, hints, before, rfl⟩ := exists_of_comment? hc
      refine (List.mem_append.1 hbreaks).imp_left fun hsuffix => ?_
      simp [raw_leaf, Leaf.raw_comment, Comment.raw, hsuffix]
    · exact .inr (ih h.2 hn)

/-- A comment in a sequence is one of its nodes, or there is a newline in the sequence. -/
theorem exists_comment_or_newline {ns : List Node} {m : Node} (h : All Closes ns) (hm : m ∈ preorderAll ns)
    (hcomment : m.comment?.isSome = true) : (∃ n ∈ ns, n.comment?.isSome = true) ∨ Byte.newline ∈ rawAll ns := by
  induction ns with
  | nil => cases hm
  | cons n ns ih =>
    obtain ⟨hn, hns⟩ := all_cons_iff.1 h
    rw [preorderAll, List.mem_append] at hm
    rw [rawAll_cons, List.mem_append]
    rcases hm with hm | hm
    · cases n with
      | leaf span hints l =>
        rw [preorder, List.mem_singleton] at hm
        exact .inl ⟨_, List.mem_cons_self, hm ▸ hcomment⟩
      | branch span hints shape args content =>
        rw [preorder, List.mem_cons] at hm
        rcases hm with rfl | hm
        · cases hcomment
        · exact .inr (.inl (hn.self.2 ⟨m, hm, hcomment⟩))
    · refine (ih hns hm).imp (fun ⟨n', hn', hc'⟩ => ?_) .inr
      exact ⟨n', List.mem_cons_of_mem _ hn', hc'⟩

/-- A container closes if its comments are fenced and its parts close. -/
theorem closes_branch {span : Span} {hints : Hints} {shape : Shape} {args content : List Node}
    (h : (branch span hints shape args content).Fenced) (hargs : All Closes args) (hcontent : All Closes content) :
    (branch span hints shape args content).Closes := by
  obtain ⟨-, hcode, hlinked⟩ := h
  have hbreaks := breaksComments_of_linked hlinked
  refine ⟨hbreaks, fun ⟨m, hm, hcomment⟩ => ?_⟩
  have hparts : Byte.newline ∈ rawAll args ∨ Byte.newline ∈ rawAll content := by
    rcases List.mem_append.1 hm with hm | hm
    · refine .inl ((exists_comment_or_newline hargs hm hcomment).resolve_left fun ⟨a, ha, hsome⟩ => ?_)
      rw [hcode a ha] at hsome
      cases hsome
    · refine .inr ((exists_comment_or_newline hcontent hm hcomment).elim (fun ⟨n, hn, hsome⟩ => ?_) id)
      exact newline_mem_of_breaksComments hbreaks hn hsome
  rw [raw_branch]
  simpa using .inr (hparts.elim .inl (.inr ∘ .inl))

mutual

/-- Containers with fenced comments close. -/
theorem closes_of_fenced : (n : Node) → Each Fenced n → Each Closes n
  | .leaf _ _ _, _ => each_leaf trivial
  | .branch _ _ _ args content, h => by
    obtain ⟨hself, hargs, hcontent⟩ := each_branch_iff.1 h
    have hargs := closesAll_of_fenced args hargs
    have hcontent := closesAll_of_fenced content hcontent
    exact each_branch (closes_branch hself hargs hcontent) hargs hcontent

theorem closesAll_of_fenced : (ns : List Node) → All Fenced ns → All Closes ns
  | [], _ => all_nil _
  | n :: ns, h => by
    obtain ⟨hn, hns⟩ := all_cons_iff.1 h
    exact all_cons (closes_of_fenced n hn) (closesAll_of_fenced ns hns)

end

end Node

/-- **The tree of a document is in lexical normal form.** In every sequence white space stands before no white space,
    each comment is one line that ends as it should and knows whether a paragraph break follows, and below the document
    comments are followed by the end of a line inside what holds them. -/
theorem Parse.lexical_normal_form {r : Registry} {src : Bytes} {tree : Node} (h : document r src = .ok tree) :
    (∀ n ∈ tree.preorder, n.Normal src) ∧ ∀ n ∈ tree.preorder.tail, n.Closes := by
  obtain ⟨content, rfl, -, hfenced⟩ := fenced_of_document h
  obtain ⟨body, hbody, htree⟩ := derives_of_document h
  cases htree
  refine ⟨normal_container (hbody.normal (Cursor.at_start src)), ?_⟩
  exact Node.closesAll_of_fenced _ hfenced

/-- A comment that takes its line break, one before a paragraph break inside a group, and one that a lone carriage
    return at the end of the source follows. -/
theorem Parse.lexical_normal_form_lone_return :
    ∃ tree, document .builtin (bytes "a%x\r\n  b\x7b%y\n\n\x7d \r%z\r") = .ok tree ∧
      (∀ n ∈ tree.preorder, n.Normal (bytes "a%x\r\n  b\x7b%y\n\n\x7d \r%z\r")) ∧
      ∀ n ∈ tree.preorder.tail, n.Closes := by
  obtain ⟨tree, htree⟩ := exists_ok_of_isOk (x := document .builtin
    (bytes "a%x\r\n  b\x7b%y\n\n\x7d \r%z\r")) (by decide +kernel)
  exact ⟨tree, htree, lexical_normal_form htree⟩

end TexTidy
