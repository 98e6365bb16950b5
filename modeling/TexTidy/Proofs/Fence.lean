import TexTidy.Proofs.Sound
import TexTidy.Proofs.Tiling

/-!
# TexTidy.Proofs.Fence

Every comment of a source is fenced: it holds no newline, and inside whatever has a closing a line break
stands right behind it. The line break is the suffix of the comment itself, or it begins the white space
that follows in the same sequence.

`Node.Linked` says this of a sequence and `Node.Fenced` of a node. Like `Node.Sound` they are all that a
statement about printing has to know of the parser; `Derives.fenced` shows that whatever is read has them,
and `fenced_annotate` that layout hints do not change that.

The line break is stated of the raw pieces and not of the raw text, since that is how a group is printed.
-/

namespace TexTidy

open Bytes (ink linePieces)

/-! ## line breaks -/

/-- The text begins with the end of a line. -/
def BreaksLine (s : Bytes) : Prop :=
  ∃ y, s = Byte.newline :: y ∨ s = Byte.carriageReturn :: Byte.newline :: y

/-- The pieces begin with the end of a line. -/
def BreaksPieces (ps : List Bytes) : Prop :=
  ∃ qs, ps = [Byte.newline] :: qs ∨ ps = [Byte.carriageReturn] :: [Byte.newline] :: qs

theorem BreaksPieces.append {ps : List Bytes} (h : BreaksPieces ps) (qs : List Bytes) :
    BreaksPieces (ps ++ qs) := by
  obtain ⟨rest, rfl | rfl⟩ := h
  · exact ⟨rest ++ qs, .inl rfl⟩
  · exact ⟨rest ++ qs, .inr rfl⟩

theorem breaksLine_flatten {ps : List Bytes} (h : BreaksPieces ps) : BreaksLine ps.flatten := by
  obtain ⟨rest, rfl | rfl⟩ := h
  · exact ⟨rest.flatten, .inl rfl⟩
  · exact ⟨rest.flatten, .inr rfl⟩

theorem linePieces_newline (s : Bytes) : linePieces (Byte.newline :: s) = [Byte.newline] :: linePieces s := by
  rw [linePieces, if_pos (by decide)]

theorem linePieces_of_line {s : Bytes} (hne : s ≠ []) (hs : Byte.newline ∉ s) : linePieces s = [s] := by
  induction s with
  | nil => exact absurd rfl hne
  | cons b s ih =>
    obtain ⟨hb, hs⟩ := not_or.1 (fun h => hs (List.mem_cons.2 h))
    rw [linePieces, if_neg (by simpa using Ne.symm hb)]
    cases s with
    | nil => rfl
    | cons c s =>
      rw [ih (List.cons_ne_nil c s) hs]
      have hne : c :: s ≠ [Byte.newline] := fun h => hs (by rw [h]; simp)
      simp [hne]

theorem breaksPieces_linePieces {s : Bytes} (h : BreaksLine s) : BreaksPieces (linePieces s) := by
  obtain ⟨y, rfl | rfl⟩ := h
  · exact ⟨linePieces y, .inl (linePieces_newline y)⟩
  · refine ⟨linePieces y, .inr ?_⟩
    rw [linePieces, if_neg (by decide), linePieces_newline]
    rfl

/-! ## tokens -/

namespace Token

/-- The token of a byte that is one by itself. -/
theorem single?_cases {c : UInt8} {k : Kind} (h : single? c = some k) :
    k = .openBrace ∨ k = .closeBrace ∨ k = .openBracket ∨ k = .closeBracket ∨ k = .symbol c := by
  unfold single? at h
  repeat' split at h
  all_goals cases h
  all_goals simp

/-- All ways to read a token. -/
theorem scan?_cases {i : Bool} {c : UInt8} {s : Bytes} {k : Kind} (h : scan? i (c :: s) = some k) :
    single? c = some k ∨ c = Byte.percent ∧ k = .comment (scanComment i [] s) ∨
    c = Byte.dollar ∧ k = scanDollar s ∨ c = Byte.backslash ∧ s ≠ [] ∧ k = .command (commandName s) ∨
    isBlank c = true ∧ k = scanBlank i (c :: s) ∨
    isActive c = false ∧ isBlank c = false ∧
      k = .text ((c :: s).takeWhile fun b => !isActive b && !isBlank b) := by
  rw [scan?] at h
  split at h
  · next hk => exact .inl (hk.trans h)
  next hsingle =>
  refine .inr ?_
  split at h
  · next hc => exact .inl ⟨hc, (Option.some.inj h).symm⟩
  next hpercent =>
  refine .inr ?_
  split at h
  · next hc => exact .inl ⟨hc, (Option.some.inj h).symm⟩
  next hdollar =>
  refine .inr ?_
  split at h
  · next hc =>
    split at h
    · cases h
    · next hs => exact .inl ⟨hc, by simpa using hs, (Option.some.inj h).symm⟩
  next hbackslash =>
  refine .inr ?_
  split at h
  · next hc => exact .inl ⟨hc, (Option.some.inj h).symm⟩
  · next hblank =>
    exact .inr ⟨isActive_eq_false hsingle hpercent hdollar hbackslash, Bool.eq_false_iff.2 hblank,
      (Option.some.inj h).symm⟩

/-- What a run of blanks can be. -/
theorem scanBlank_cases (i : Bool) (s : Bytes) :
    (∃ c, scanBlank i s = .comment c) ∨
    2 ≤ (s.takeWhile isBlank).count Byte.newline ∧ scanBlank i s = .parbreak (s.takeWhile isBlank) ∨
    (s.takeWhile isBlank).count Byte.newline ≤ 1 ∧ scanBlank i s = .space (s.takeWhile isBlank) := by
  unfold scanBlank
  dsimp only
  split
  · exact .inl ⟨_, rfl⟩
  · split
    · next hcount => exact .inr (.inl ⟨hcount, rfl⟩)
    · next hcount => exact .inr (.inr ⟨by omega, rfl⟩)

theorem scanDollar_cases (s : Bytes) : scanDollar s = .dollar ∨ scanDollar s = .dollars := by
  unfold scanDollar
  split <;> simp

theorem breaksLine_of_lineBreak {s : Bytes} (h : lineBreak s ≠ []) (z : Bytes) :
    BreaksLine (lineBreak s ++ z) := by
  unfold lineBreak at *
  split
  · exact ⟨z, .inr rfl⟩
  · split
    · exact ⟨z, .inl rfl⟩
    · simp_all

/-- A comment takes nothing from behind its line, or it takes the end of the line first. -/
theorem commentSuffix_cases (s : Bytes) : commentSuffix s = [] ∨ BreaksLine (commentSuffix s) := by
  unfold commentSuffix
  split
  · exact .inl rfl
  · next br hbr =>
    dsimp only
    split
    · exact .inl rfl
    · split
      · exact .inl rfl
      · exact .inr (breaksLine_of_lineBreak (fun h => hbr (by simpa using h)) _)

/-- A text is a line, without a newline, and behind it nothing or a newline. -/
theorem exists_line (s : Bytes) : ∃ rest, s = s.takeWhile (· != Byte.newline) ++ rest ∧
    Byte.newline ∉ s.takeWhile (· != Byte.newline) ∧ (rest = [] ∨ ∃ y, rest = Byte.newline :: y) := by
  refine ⟨s.dropWhile (· != Byte.newline), List.takeWhile_append_dropWhile.symm, fun hmem => ?_, ?_⟩
  · simpa using List.all_eq_true.1 List.all_takeWhile _ hmem
  · cases hdrop : s.dropWhile (· != Byte.newline) with
    | nil => exact .inl rfl
    | cons b y =>
      have hb := List.head?_dropWhile_not (· != Byte.newline) s
      rw [hdrop] at hb
      exact .inr ⟨y, by rw [show b = Byte.newline by simpa using hb]⟩

/-- The content of a comment is one line, and the end of that line follows. -/
theorem scanComment_content (inked : Bool) (leading after : Bytes) :
    Byte.newline ∉ (scanComment inked leading after).content ∧
      ∃ rest, after = (scanComment inked leading after).content ++ rest ∧
        (ink rest = [] ∧ Byte.newline ∉ rest ∨ BreaksLine rest) := by
  obtain ⟨rest, hsplit, hline, hrest⟩ := exists_line after
  have hcontent : (scanComment inked leading after).content =
      if (after.takeWhile (· != Byte.newline)).getLast? == some Byte.carriageReturn
        then (after.takeWhile (· != Byte.newline)).dropLast
        else after.takeWhile (· != Byte.newline) := rfl
  rw [hcontent]
  generalize after.takeWhile (· != Byte.newline) = line at *
  split
  · -- A carriage return at the end of the line belongs to the line break.
    next hlast =>
    obtain ⟨line, rfl⟩ := List.getLast?_eq_some_iff.1 (beq_iff_eq.1 hlast)
    rw [List.dropLast_concat]
    refine ⟨fun hmem => hline (List.mem_append_left _ hmem), Byte.carriageReturn :: rest, ?_, ?_⟩
    · rw [hsplit]
      simp
    · rcases hrest with rfl | ⟨y, rfl⟩
      · exact .inl ⟨rfl, by decide⟩
      · exact .inr ⟨y, .inr rfl⟩
  · refine ⟨hline, rest, hsplit, ?_⟩
    rcases hrest with rfl | ⟨y, rfl⟩
    · exact .inl ⟨rfl, List.not_mem_nil⟩
    · exact .inr ⟨y, .inl rfl⟩

/-- Where a comment is read from. -/
theorem scan?_comment {i : Bool} {s : Bytes} {comment : Comment}
    (h : scan? i s = some (.comment comment)) :
    ∃ leading after, s = leading ++ Byte.percent :: after ∧ comment = scanComment i leading after ∧
      ink leading = [] ∧ Byte.newline ∉ leading := by
  cases s with
  | nil => cases h
  | cons c s =>
    rcases scan?_cases h with h' | ⟨rfl, h'⟩ | ⟨-, h'⟩ | ⟨-, -, h'⟩ | ⟨-, h'⟩ | ⟨-, -, h'⟩
    · have := single?_cases h'
      simp at this
    · exact ⟨[], s, rfl, Kind.comment.inj h', rfl, by simp⟩
    · rcases scanDollar_cases s with hd | hd <;> cases h'.trans hd
    · cases h'
    · unfold scanBlank at h'
      dsimp only at h'
      split at h'
      · next hcomment =>
        obtain ⟨after, hafter⟩ := List.head?_eq_some_iff.1 hcomment.2
        rw [hafter] at h'
        refine ⟨_, after, ?_, Kind.comment.inj h', ink_takeWhile (fun _ h => h) _,
          List.count_eq_zero.1 hcomment.1⟩
        rw [← hafter, List.takeWhile_append_dropWhile]
      · split at h' <;> cases h'
    · cases h'

/-- White space that begins with the end of a line is not taken for the blanks before a comment. -/
theorem scanBlank_of_breaksLine (inked : Bool) {s : Bytes} (h : BreaksLine s) :
    ∃ raw, BreaksLine raw ∧ (scanBlank inked s = .space raw ∨ scanBlank inked s = .parbreak raw) := by
  have hraw : BreaksLine (s.takeWhile isBlank) := by
    obtain ⟨y, rfl | rfl⟩ := h
    · exact ⟨y.takeWhile isBlank, .inl rfl⟩
    · exact ⟨y.takeWhile isBlank, .inr rfl⟩
  have hcount : (s.takeWhile isBlank).count Byte.newline ≠ 0 := by
    refine fun hzero => List.count_eq_zero.1 hzero ?_
    obtain ⟨y, hy | hy⟩ := hraw <;> simp [hy]
  refine ⟨_, hraw, ?_⟩
  unfold scanBlank
  dsimp only
  rw [if_neg fun hcomment => hcount hcomment.1]
  split
  · exact .inr rfl
  · exact .inl rfl

/-- The token at the end of a line is white space. -/
theorem scan?_of_breaksLine {inked : Bool} {s : Bytes} {k : Kind} (h : BreaksLine s)
    (hk : scan? inked s = some k) : ∃ raw, BreaksLine raw ∧ (k = .space raw ∨ k = .parbreak raw) := by
  have hscan : scan? inked s = some (scanBlank inked s) := by
    obtain ⟨y, rfl | rfl⟩ := h <;> rfl
  cases hscan.symm.trans hk
  exact scanBlank_of_breaksLine inked h

end Token

namespace Cursor

theorem scan?_of_token {c d : Cursor} {t : Token} (h : c.token = .ok (t, d)) :
    Token.scan? c.inked c.rest = some t.kind := by
  unfold token at h
  split at h
  · next hk =>
    cases h
    exact hk
  · cases h

end Cursor

/-- A comment is one line with white space around it, and a line break follows it unless nothing but white
    space does. -/
structure Comment.Shaped (c : Comment) (rest : Bytes) : Prop where
  leading : ink c.leading = []
  first : Byte.newline ∉ c.leading
  line : Byte.newline ∉ c.content
  suffix : ink c.suffix = []
  breaks : c.suffix = [] ∨ BreaksLine c.suffix
  ends : ink rest = [] ∨ BreaksLine (c.suffix ++ rest)

/-- The parts of a comment and what follows its line. -/
theorem Cursor.exists_of_comment {c d : Cursor} {t : Token} {comment : Comment}
    (token : c.token = .ok (t, d)) (kind : t.kind = .comment comment) :
    ∃ rest, c.rest = comment.leading ++ Byte.percent :: (comment.content ++ rest) ∧
      rest = comment.suffix ++ d.rest ∧ comment.suffix = Token.commentSuffix rest ∧
      (ink comment.leading = [] ∧ Byte.newline ∉ comment.leading ∧ Byte.newline ∉ comment.content) ∧
      (ink rest = [] ∧ Byte.newline ∉ rest ∨ BreaksLine rest) := by
  have hscan := Cursor.scan?_of_token token
  rw [kind] at hscan
  obtain ⟨leading, after, hrest, rfl, hleading, hfirst⟩ := Token.scan?_comment hscan
  obtain ⟨hline, rest, hafter, hends⟩ := Token.scanComment_content c.inked leading after
  have htext := (Cursor.token_reads token).1.text
  have hsuffix : rest = (Token.scanComment c.inked leading after).suffix ++ d.rest := by
    rw [hrest, kind, Token.Kind.raw, Comment.raw] at htext
    simp only [Token.scanComment, List.append_assoc, List.cons_append] at htext hafter ⊢
    have htail := (List.cons.inj (List.append_cancel_left htext)).2
    exact List.append_cancel_left (hafter.symm.trans htail)
  refine ⟨rest, ?_, hsuffix, ?_, ⟨hleading, hfirst, hline⟩, hends⟩
  · rw [← hafter]
    exact hrest
  · have hdrop := congrArg (List.drop (Token.scanComment c.inked leading after).content.length) hafter
    rw [List.drop_left] at hdrop
    exact congrArg Token.commentSuffix hdrop

theorem Cursor.comment_shaped {c d : Cursor} {t : Token} {comment : Comment}
    (token : c.token = .ok (t, d)) (kind : t.kind = .comment comment) : comment.Shaped d.rest := by
  obtain ⟨rest, -, hrest, hsuffix, ⟨hleading, hfirst, hline⟩, hends⟩ := Cursor.exists_of_comment token kind
  refine ⟨hleading, hfirst, hline, ?_, ?_, ?_⟩
  · rw [hsuffix]
    exact Token.ink_commentSuffix rest
  · rw [hsuffix]
    exact Token.commentSuffix_cases rest
  · rw [← hrest]
    refine hends.imp_left fun ⟨hwhite, _⟩ => ?_
    rw [hrest] at hwhite
    exact Bytes.ink_of_append hwhite

/-! ## sequences and nodes -/

namespace Node

/-- What has to stand behind a node: a paragraph break, if a comment says so, and a line break behind
    every comment of a closed sequence. -/
def Leads (closed : Bool) (ns : List Node) : Node → Prop
  | .leaf _ _ (.comment c before) =>
    (before = true → (ns.head?.map isParbreak).getD false = true) ∧
      (closed = true → BreaksPieces (c.suffix.linePieces ++ rawPiecesAll ns))
  | _ => True

/-- Behind every node of a sequence stands what has to stand there. -/
def Linked (closed : Bool) : List Node → Prop
  | [] => True
  | n :: ns => n.Leads closed ns ∧ Linked closed ns

end Node

/-- What a shape says about the comments in the content of its branch: an argument without delimiters has
    none. A document does not stand below another node. -/
def Shape.Fenced (content : List Node) : Shape → Prop
  | .document => False
  | .argument _ opening _ => opening = [] → ∀ n ∈ content, n.comment? = none
  | _ => True

/-- Comments are fenced in a node that was read inside a document. -/
def Node.Fenced : Node → Prop
  | .leaf _ _ (.comment c _) => Byte.newline ∉ c.content
  | .leaf _ _ .missing => False
  | .leaf _ _ _ => True
  | .branch _ _ shape args content =>
    shape.Fenced content ∧ (∀ a ∈ args, a.comment? = none) ∧ Linked true content

/-! ## derivations -/

namespace Node

/-- Whether a paragraph break follows a comment does not change its pieces. -/
theorem rawPiecesAll_link (n : Node) (ns : List Node) :
    rawPiecesAll (Parse.link n ns) = n.rawPieces ++ rawPiecesAll ns := by
  unfold Parse.link
  split <;> rfl

end Node

namespace Parse

open Node (Each All Fenced Linked rawPiecesAll)

/-- What closes a sequence is no white space. -/
theorem Closer.Ends.solid {closer : Closer} {k : Token.Kind} (h : closer.Ends k) :
    ∃ b s, k.raw = b :: s ∧ isBlank b = false := by
  cases closer with
  | document => cases h
  | dollar => rcases h with rfl | rfl <;> exact ⟨_, _, rfl, rfl⟩
  | _ =>
    cases h
    exact ⟨_, _, rfl, rfl⟩

/-- A sequence that is closed has ink behind it. -/
theorem Derives.ink_rest {r : Registry} {mode : Mode} {closer : Closer} {c : Cursor} {body : Sequence}
    (h : Derives r (.sequence mode closer c body)) (closed : body.isOpen = false) : ink c.rest ≠ [] := by
  obtain ⟨hnodes, hlast, -⟩ := h.moves
  obtain ⟨b, s, hraw, hb⟩ := (h.ends closed).solid
  rw [hnodes.text, hlast.text, hraw]
  intro hink
  rw [Bytes.ink_append, List.append_eq_nil_iff] at hink
  have := Bytes.ink_eq_nil_iff.1 hink.2 b (by simp)
  rw [hb] at this
  cases this

/-- What is read from the end of a line begins with it, as a piece of its own. -/
def Judgement.Breaks : Judgement → Prop
  | .sequence _ _ c s => BreaksLine c.rest → s.isOpen = false → BreaksPieces (rawPiecesAll s.nodes)
  | .item _ c n _ => BreaksLine c.rest → BreaksPieces n.rawPieces
  | .arguments _ _ _ _ _ => True

/-- A node that begins with a token other than white space is not read from the end of a line. -/
theorem breaks_item {mode : Mode} {c d e : Cursor} {t : Token} (n : Node) (token : c.token = .ok (t, d))
    (hspace : ∀ raw, t.kind ≠ .space raw) (hparbreak : ∀ raw, t.kind ≠ .parbreak raw) :
    (Judgement.item mode c n e).Breaks := by
  intro hc
  obtain ⟨raw, -, hk | hk⟩ := Token.scan?_of_breaksLine hc (Cursor.scan?_of_token token)
  · exact absurd hk (hspace raw)
  · exact absurd hk (hparbreak raw)

theorem breaks_of_formula? {mode : Mode} {c d e : Cursor} {t : Token} {closer : Closer} {shape : Shape}
    (n : Node) (token : c.token = .ok (t, d)) (kind : formula? t.kind = some (closer, shape)) :
    (Judgement.item mode c n e).Breaks := by
  refine breaks_item n token (fun raw hk => ?_) fun raw hk => ?_ <;>
  · rw [hk] at kind
    cases kind

theorem Derives.breaks {r : Registry} {j : Judgement} (h : Derives r j) : j.Breaks := by
  induction h with
  | @stop _ closer _ _ _ token closed =>
    intro hc hopen
    -- White space closes nothing, so the source would have to end here.
    obtain ⟨raw, -, hk⟩ := Token.scan?_of_breaksLine hc (Cursor.scan?_of_token token)
    rcases closed with hnone | hend
    · obtain ⟨b, s, hraw, hb⟩ := (Closer.ends_of_pass_eq_none hnone).solid
      have hblank := Cursor.token_sound token
      rcases hk with hk | hk <;>
      · rw [hk] at hblank hraw
        have := Bytes.ink_eq_nil_iff.1 hblank b (by rw [show raw = b :: s from hraw]; simp)
        rw [hb] at this
        cases this
    · rcases hk with hk | hk <;> cases hend.symm.trans hk
  | next token pass more head rest ihHead ihRest =>
    intro hc _
    rw [Node.rawPiecesAll_link]
    exact (ihHead hc).append _
  | leaf token plain =>
    intro hc
    obtain ⟨raw, hraw, hk | hk⟩ := Token.scan?_of_breaksLine hc (Cursor.scan?_of_token token) <;>
    · rw [hk] at plain
      cases plain
      exact breaksPieces_linePieces hraw
  | formula token kind => exact breaks_of_formula? _ token kind
  | script token kind | group token kind | dollar token kind | emptyDollars token kind
  | environment token kind | verbatim token kind | verb token kind | command token kind =>
    exact breaks_item _ token (by simp [kind]) (by simp [kind])
  | done | absent | star | optional | braced | bareCommand | bareCharacter => trivial

/-- A comment that was read is one line, and nobody knows yet what follows it. -/
theorem Derives.comment_item {r : Registry} {mode : Mode} {c d : Cursor} {s : Span} {hints : Hints}
    {comment : Comment} {before : Bool}
    (h : Derives r (.item mode c (.leaf s hints (.comment comment before)) d)) :
    before = false ∧ comment.Shaped d.rest := by
  cases h with
  | @leaf _ _ t _ _ token plain =>
    rcases plainLeaf?_cases plain with h | ⟨raw, -, h⟩ | ⟨raw, -, h⟩ | ⟨c, hkind, h⟩ <;> cases h
    exact ⟨rfl, Cursor.comment_shaped token hkind⟩

/-- Comments are fenced in whatever is read. -/
def Judgement.Fenced : Judgement → Prop
  | .sequence _ _ _ s => Linked (!s.isOpen) s.nodes ∧ All Node.Fenced s.nodes
  | .item _ _ n _ => Each Node.Fenced n
  | .arguments _ _ _ args _ => (∀ a ∈ args, a.comment? = none) ∧ All Node.Fenced args

/-- A comment in front of a closed sequence has a line break behind it. -/
theorem Derives.breaks_of_shaped {r : Registry} {mode : Mode} {closer : Closer} {c : Cursor}
    {body : Sequence} {comment : Comment} (h : Derives r (.sequence mode closer c body))
    (closed : body.isOpen = false) (hshaped : comment.Shaped c.rest) :
    BreaksPieces (comment.suffix.linePieces ++ rawPiecesAll body.nodes) := by
  have hends := hshaped.ends.resolve_left (h.ink_rest closed)
  rcases hshaped.breaks with hempty | hbreaks
  · rw [hempty] at hends ⊢
    exact h.breaks hends closed
  · exact (breaksPieces_linePieces hbreaks).append _

/-- A node in front of a sequence that was read after it. -/
theorem Derives.linked_link {r : Registry} {mode : Mode} {closer : Closer} {c d : Cursor} {n : Node}
    {tail : Sequence} (head : Derives r (.item mode c n d))
    (rest : Derives r (.sequence mode closer d tail)) (h : Linked (!tail.isOpen) tail.nodes) :
    Linked (!tail.isOpen) (link n tail.nodes) := by
  unfold link
  split
  · obtain ⟨hbefore, hshaped⟩ := head.comment_item
    refine ⟨⟨fun hpar => ?_, fun hclosed => ?_⟩, h⟩
    · rwa [hbefore, Bool.false_or] at hpar
    · exact rest.breaks_of_shaped (by simpa using hclosed) hshaped
  · next hcomment =>
    refine ⟨?_, h⟩
    unfold Node.Leads
    split
    · exact absurd rfl (hcomment _ _ _ _)
    · trivial

theorem fenced_plainLeaf? {mode : Mode} {c d : Cursor} {t : Token} {l : Leaf} (s : Span)
    (token : c.token = .ok (t, d)) (h : plainLeaf? mode t.kind = some l) :
    (Node.leaf s {} l).Fenced := by
  rcases plainLeaf?_cases h with rfl | ⟨raw, -, rfl⟩ | ⟨raw, -, rfl⟩ | ⟨c, hkind, rfl⟩
  · trivial
  · trivial
  · trivial
  · exact (Cursor.comment_shaped token hkind).line

theorem shape_fenced_formula? {k : Token.Kind} {closer : Closer} {shape : Shape} {content : List Node}
    (h : formula? k = some (closer, shape)) : shape.Fenced content := by
  rcases formula?_cases h with ⟨-, -, rfl⟩ | ⟨-, -, rfl⟩ | ⟨-, -, rfl⟩ <;> trivial

theorem shape_fenced_environmentShape (spec : EnvironmentSpec) (name : Bytes) (content : List Node) :
    (environmentShape spec name).Fenced content := by
  unfold environmentShape
  split <;> trivial

/-- What a closed container says about its content. -/
theorem linked_of_closed {body : Sequence} (closed : body.isOpen = false)
    (h : Linked (!body.isOpen) body.nodes) : Linked true body.nodes := by
  rwa [closed] at h

/-- A branch without arguments is fenced if its content is. -/
theorem fenced_container {s : Span} {shape : Shape} {nodes : List Node} (hshape : shape.Fenced nodes)
    (hlinked : Linked true nodes) (hnodes : All Node.Fenced nodes) :
    Each Node.Fenced (.branch s {} shape [] nodes) :=
  Node.each_branch ⟨hshape, by simp, hlinked⟩ (Node.all_nil _) hnodes

/-- A branch without content is fenced if its arguments are. -/
theorem fenced_command {s : Span} {shape : Shape} {args : List Node} (hshape : shape.Fenced [])
    (hargs : ∀ a ∈ args, a.comment? = none) (hall : All Node.Fenced args) :
    Each Node.Fenced (.branch s {} shape args []) :=
  Node.each_branch ⟨hshape, hargs, trivial⟩ hall (Node.all_nil _)

/-- An argument of one node that is no comment. -/
theorem fenced_single {s : Span} {space : Bytes} {n : Node} (hn : Each Node.Fenced n)
    (hcomment : n.comment? = none) (hleads : n.Leads true []) :
    Each Node.Fenced (.branch s {} (.argument space [] []) [] [n]) :=
  fenced_container (fun _ => by simpa using hcomment) ⟨hleads, trivial⟩
    (Node.all_cons hn (Node.all_nil _))

/-- An argument in front of others. -/
theorem fenced_cons {s : Span} {shape : Shape} {content args : List Node}
    (h : Each Node.Fenced (.branch s {} shape [] content))
    (hargs : (∀ a ∈ args, a.comment? = none) ∧ All Node.Fenced args) :
    (∀ a ∈ Node.branch s {} shape [] content :: args, a.comment? = none) ∧
      All Node.Fenced (.branch s {} shape [] content :: args) :=
  ⟨List.forall_mem_cons.2 ⟨rfl, hargs.1⟩, Node.all_cons h hargs.2⟩

/-- **Comments are fenced in whatever is read.** -/
theorem Derives.fenced {r : Registry} {j : Judgement} (h : Derives r j) : j.Fenced := by
  induction h with
  | stop token closed => exact ⟨trivial, Node.all_nil _⟩
  | next token pass more head rest ihHead ihRest =>
    exact ⟨head.linked_link rest ihRest.1, Node.all_link id ihHead ihRest.2⟩
  | leaf token plain => exact Node.each_leaf (fenced_plainLeaf? _ token plain)
  | script token kind sign taken ih => exact fenced_command trivial ih.1 ih.2
  | group token kind content closed ih => exact fenced_container trivial (linked_of_closed closed ih.1) ih.2
  | formula token kind content closed ih =>
    exact fenced_container (shape_fenced_formula? kind) (linked_of_closed closed ih.1) ih.2
  | dollar token kind content closed half ih =>
    exact fenced_container trivial (linked_of_closed closed ih.1) ih.2
  | emptyDollars token kind => exact fenced_container trivial trivial (Node.all_nil _)
  | environment token kind opening nodes taken content closed closing ihTaken ihContent =>
    exact Node.each_branch ⟨shape_fenced_environmentShape _ _ _, ihTaken.1,
      linked_of_closed closed ihContent.1⟩ ihTaken.2 ihContent.2
  | verbatim token kind opening raw taken content ih => exact fenced_command trivial ih.1 ih.2
  | verb token kind known free starred star_eq content => exact Node.each_leaf trivial
  | command token kind known free taken ih => exact fenced_command trivial ih.1 ih.2
  | done => exact ⟨by simp, Node.all_nil _⟩
  | absent missing others ih => exact ih
  | star sign others ih =>
    exact fenced_cons (fenced_single (Node.each_leaf trivial) rfl trivial) ih
  | optional sign content closed others ihContent ihOthers =>
    exact fenced_cons (fenced_container (fun h => by cases h) (linked_of_closed closed ihContent.1)
      ihContent.2) ihOthers
  | braced sign content closed others ihContent ihOthers =>
    exact fenced_cons (fenced_container (fun h => by cases h) (linked_of_closed closed ihContent.1)
      ihContent.2) ihOthers
  | bareCommand token kind known free others ih =>
    exact fenced_cons (fenced_single (fenced_command trivial (by simp) (Node.all_nil _)) rfl trivial) ih
  | bareCharacter sign inert content others ih =>
    exact fenced_cons (fenced_single (Node.each_leaf trivial) rfl trivial) ih

end Parse

/-! ## hints -/

namespace Node

@[simp] theorem comment?_annotate (r : Registry) (n : Node) : (n.annotate r).comment? = n.comment? := by
  cases n with
  | leaf s hints l => cases l <;> rfl
  | branch s hints shape args content => rfl

@[simp] theorem isParbreak_annotate (r : Registry) (n : Node) : (n.annotate r).isParbreak = n.isParbreak := by
  cases n with
  | leaf s hints l => cases l <;> rfl
  | branch s hints shape args content => rfl

theorem comment?_annotateAll {r : Registry} {ns : List Node} (h : ∀ n ∈ ns, n.comment? = none) :
    ∀ n ∈ annotateAll r ns, n.comment? = none := by
  induction ns with
  | nil => exact h
  | cons n ns ih =>
    obtain ⟨hn, hns⟩ := List.forall_mem_cons.1 h
    exact List.forall_mem_cons.2 ⟨by rw [comment?_annotate, hn], ih hns⟩

theorem leads_annotate {r : Registry} {closed : Bool} {n : Node} {ns : List Node}
    (h : n.Leads closed ns) : (n.annotate r).Leads closed (annotateAll r ns) := by
  cases n with
  | branch s hints shape args content => trivial
  | leaf s hints l =>
    cases l with
    | comment c before =>
      obtain ⟨hpar, hbreak⟩ := h
      refine ⟨fun hbefore => ?_, fun hclosed => ?_⟩
      · cases ns with
        | nil => exact hpar hbefore
        | cons m ms => exact (isParbreak_annotate r m).trans (hpar hbefore)
      · rw [rawPiecesAll_annotateAll]
        exact hbreak hclosed
    | _ => trivial

theorem linked_annotateAll {r : Registry} {closed : Bool} {ns : List Node} (h : Linked closed ns) :
    Linked closed (annotateAll r ns) := by
  induction ns with
  | nil => trivial
  | cons n ns ih => exact ⟨leads_annotate h.1, ih h.2⟩

theorem fenced_annotate {r : Registry} {n : Node} (h : n.Fenced) : (n.annotate r).Fenced := by
  cases n with
  | leaf s hints l => cases l <;> exact h
  | branch s hints shape args content =>
    obtain ⟨hshape, hargs, hlinked⟩ := h
    refine ⟨?_, comment?_annotateAll hargs, linked_annotateAll hlinked⟩
    cases shape with
    | document => exact hshape
    | argument space opening closing => exact fun hopening => comment?_annotateAll (hshape hopening)
    | _ => trivial

end Node

/-- The comments of a document are fenced. Nothing has to close the document, so its last comment may end
    with the source. -/
theorem Parse.fenced_of_document {r : Registry} {src : Bytes} {tree : Node}
    (h : Parse.document r src = .ok tree) :
    ∃ content, tree = .branch ⟨0, src.length⟩ {} .document [] content ∧ Node.Linked false content ∧
      Node.All Node.Fenced content := by
  obtain ⟨body, hbody, rfl⟩ := Parse.derives_of_document h
  obtain ⟨hlinked, hall⟩ := hbody.fenced
  have hopen : body.isOpen = true := (hbody.moves.2.2.resolve_right id).1
  rw [hopen] at hlinked
  exact ⟨body.nodes, rfl, hlinked, hall⟩

end TexTidy
