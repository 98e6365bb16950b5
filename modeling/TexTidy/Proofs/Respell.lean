import TexTidy.Proofs.RoundTrip
import TexTidy.Proofs.Spelling

/-!
# TexTidy.Proofs.Respell

What decides how reading goes on, and why a spelling of a tree decides it as the source did: what begins an
argument (`Derives.beginsArgument`), the first byte of a node (`Derives.begins`), what closes a sequence
(`Closer.Closes`), and which arguments are absent.
-/

namespace TexTidy

open Bytes (ink)

/-! ## hints change nothing -/

namespace Node

variable (r : Registry)

@[simp] theorem isSpace_annotate (n : Node) : (n.annotate r).isSpace = n.isSpace := by
  cases n with
  | leaf s h l => cases l <;> rfl
  | branch => rfl

@[simp] theorem isEdible_annotate (n : Node) : (n.annotate r).isEdible = n.isEdible := by
  cases n with
  | leaf s h l => cases l <;> rfl
  | branch s h shape args content => cases shape <;> rfl

@[simp] theorem raw_annotate (n : Node) : (n.annotate r).raw = n.raw := by
  rw [raw, raw, rawPieces_annotate]

@[simp] theorem rawAll_annotateAll (ns : List Node) : rawAll (annotateAll r ns) = rawAll ns := by
  rw [rawAll, rawAll, rawPiecesAll_annotateAll]

@[simp] theorem annotateAll_append (ms ns : List Node) :
    annotateAll r (ms ++ ns) = annotateAll r ms ++ annotateAll r ns := by
  induction ms with
  | nil => rfl
  | cons m ms ih => simp [annotateAll, ih]

@[simp] theorem fits_annotate (kind : ArgKind) (n : Node) :
    kind.fits (n.annotate r) = kind.fits n := by
  cases n with
  | leaf => rfl
  | branch s h shape args content =>
    cases shape with
    | argument => cases kind <;> simp [annotate, ArgKind.fits]
    | _ => rfl

theorem waiting_annotateAll (kinds : List ArgKind) (args : List Node) :
    ArgKind.waiting kinds (annotateAll r args) = ArgKind.waiting kinds args := by
  induction kinds generalizing args with
  | nil => rfl
  | cons kind kinds ih =>
    cases args with
    | nil => rfl
    | cons a as =>
      rw [annotateAll, ArgKind.waiting, ArgKind.waiting, fits_annotate, ih as, ← annotateAll, ih (a :: as)]

@[simp] theorem isHungry_annotateAll (kinds : List ArgKind) (args : List Node) :
    ArgKind.isHungry kinds (annotateAll r args) = ArgKind.isHungry kinds args := by
  rw [ArgKind.isHungry, ArgKind.isHungry, waiting_annotateAll]

@[simp] theorem isLineEnd_annotate (n : Node) : (n.annotate r).isLineEnd r = n.isLineEnd r := by
  cases n with
  | leaf => rfl
  | branch s h shape args content => cases shape <;> rfl

@[simp] theorem isHungry_annotate (n : Node) : (n.annotate r).isHungry r = n.isHungry r := by
  cases n with
  | leaf => rfl
  | branch s h shape args content =>
    cases shape with
    | command => simp [annotate, isHungry]
    | _ => rfl

end Node

/-! ## where an argument begins -/

namespace Parse

variable {r : Registry}

/-- Whether a mandatory argument begins at a text, apart from space in front of it. -/
def feeds (r : Registry) (s : Bytes) : Bool :=
  beginsArgument r (Cursor.skipSpace ⟨0, false, s⟩).2

theorem beginsArgument_congr {c d : Cursor} (h : c.rest = d.rest) :
    beginsArgument r c = beginsArgument r d := by
  unfold beginsArgument
  rw [h]

theorem isAbsent_mandatory (c : Cursor) : isAbsent r c .mandatory = !feeds r c.rest := by
  rw [isAbsent, feeds]
  congr 1
  refine beginsArgument_congr ?_
  unfold Cursor.skipSpace
  dsimp only
  split <;> simp

/-- No argument begins with a blank. -/
theorem beginsArgument_of_blank {c : Cursor} (h : c.rest.head?.any isBlank = true) :
    beginsArgument r c = false := by
  unfold beginsArgument
  split
  · rfl
  · next b s hrest =>
    rw [hrest] at h
    have hb : isBlank b = true := h
    have hbrace : b ≠ Byte.openBrace := by rintro rfl; cases hb
    have hbackslash : b ≠ Byte.backslash := by rintro rfl; cases hb
    simp [hbrace, hbackslash, hb]

/-- White space in front of a text hides an argument exactly if it is a paragraph break. -/
theorem feeds_append {w z : Bytes} (hw : ink w = []) (hz : z.head?.any isBlank = false) :
    feeds r (w ++ z) = (decide (w.count Byte.newline ≤ 1) && beginsArgument r ⟨0, false, z⟩) := by
  have htake := (Cursor.takeWhile_blank hw hz).1
  rw [feeds, Cursor.skipSpace, htake]
  by_cases hcount : w.count Byte.newline ≤ 1
  · rw [if_neg (by omega)]
    simp only [hcount, decide_true, Bool.true_and]
    exact beginsArgument_congr (by simp)
  · rw [if_pos (by omega)]
    simp only [hcount, decide_false, Bool.false_and]
    refine beginsArgument_of_blank ?_
    cases w with
    | nil => simp at hcount
    | cons b w => exact Bytes.ink_eq_nil_iff.1 hw b (by simp)

/-- The same without white space. -/
theorem feeds_of_solid {z : Bytes} (hz : z.head?.any isBlank = false) :
    feeds r z = beginsArgument r ⟨0, false, z⟩ := by
  simpa using feeds_append (r := r) (w := []) rfl hz

/-- A word or a symbol begins an argument if its first byte is inert. -/
theorem beginsArgument_text {c : Cursor} {b : UInt8} {s : Bytes} (hrest : c.rest = b :: s)
    (hbrace : b ≠ Byte.openBrace) (hbackslash : b ≠ Byte.backslash) :
    beginsArgument r c = (b ≠ 0 && !isActive b && !isBlank b) := by
  simp [beginsArgument, hrest, hbrace, hbackslash]

theorem beginsArgument_command {c : Cursor} {s : Bytes} (hrest : c.rest = Byte.backslash :: s)
    (hs : s ≠ []) :
    beginsArgument r c = !(r.isVerb (Token.commandName s) || isDelimiter (Token.commandName s)) := by
  simp [beginsArgument, hrest, hs, Byte.backslash, Byte.openBrace]

/-- A byte that text can begin with. -/
structure BeginsText (b : UInt8) : Prop where
  brace : b ≠ Byte.openBrace
  backslash : b ≠ Byte.backslash
  percent : b ≠ Byte.percent
  blank : isBlank b = false

theorem BeginsText.of_plain {b : UInt8} (hactive : isActive b = false) (hblank : isBlank b = false) :
    BeginsText b := by
  refine ⟨?_, ?_, ?_, hblank⟩
  all_goals
    rintro rfl
    cases hactive

theorem BeginsText.of_single? {b char : UInt8} (h : Token.single? b = some (.symbol char)) :
    BeginsText b := by
  refine ⟨?_, ?_, ?_, Bool.eq_false_iff.2 fun hblank => ?_⟩
  · rintro rfl
    cases h
  · rintro rfl
    cases h
  · rintro rfl
    cases h
  · simp only [isBlank, Bool.or_eq_true, beq_iff_eq] at hblank
    rcases hblank with ((rfl | rfl) | rfl) | rfl <;> cases h

/-- The token of a leaf that is text by itself. -/
theorem plainLeaf?_text {mode : Mode} {c d : Cursor} {t : Token} {content : Bytes}
    (token : c.token = .ok (t, d)) (plain : plainLeaf? mode t.kind = some (.text content)) :
    ∃ b s, content = b :: s ∧ BeginsText b := by
  have hscan := Cursor.scan?_of_token token
  rw [(Cursor.token_reads token).1.text] at hscan
  unfold plainLeaf? at plain
  split at plain
  · next content' hk =>
    cases plain
    rw [hk] at hscan
    obtain ⟨b, s, rfl, hactive, hblank⟩ := Token.exists_cons_of_text hscan
    exact ⟨b, s, rfl, .of_plain hactive hblank⟩
  · cases plain
    exact ⟨_, _, rfl, by decide, by decide, by decide, by decide⟩
  · cases plain
    exact ⟨_, _, rfl, by decide, by decide, by decide, by decide⟩
  · cases plain
  · cases plain
  · cases plain
  · next char hk =>
    split at plain
    · cases plain
    · cases plain
      rw [hk] at hscan
      exact ⟨_, _, rfl, .of_single? (Token.single?_of_scan? hscan)⟩
  · cases plain

theorem kind_of_plainLeaf?_comment {mode : Mode} {k : Token.Kind} {c : Comment} {before : Bool}
    (h : plainLeaf? mode k = some (.comment c before)) : k = .comment c := by
  rcases plainLeaf?_cases h with hl | ⟨raw, -, hl⟩ | ⟨raw, -, hl⟩ | ⟨c', hk, hl⟩ <;> cases hl
  exact hk

theorem plainLeaf?_of_formula? {mode : Mode} {k : Token.Kind} {closer : Closer} {shape : Shape}
    (h : formula? k = some (closer, shape)) : plainLeaf? mode k = none := by
  cases k <;> first | rfl | cases h

/-- A token that is a leaf by itself is read as that leaf. -/
theorem Derives.eq_leaf {mode : Mode} {c d e : Cursor} {t : Token} {n : Node} {l : Leaf}
    (head : Derives r (.item mode c n e)) (token : c.token = .ok (t, d))
    (plain : plainLeaf? mode t.kind = some l) : n = .leaf ⟨c.pos, d.pos⟩ {} l := by
  cases head with
  | leaf token' plain' =>
    cases token.symm.trans token'
    cases plain.symm.trans plain'
    rfl
  | script token' kind sign =>
    cases token.symm.trans token'
    rw [kind, plainLeaf?, if_pos ⟨rfl, sign⟩] at plain
    cases plain
  | formula token' kind =>
    cases token.symm.trans token'
    rw [plainLeaf?_of_formula? kind] at plain
    cases plain
  | group token' kind | dollar token' kind | emptyDollars token' kind | environment token' kind
  | verbatim token' kind | verb token' kind | command token' kind =>
    cases token.symm.trans token'
    rw [kind] at plain
    cases plain

/-- A token of a leaf that is a comment begins with a blank or a percent sign. -/
theorem beginsArgument_comment {c d : Cursor} {t : Token} {comment : Comment}
    (token : c.token = .ok (t, d)) (kind : t.kind = .comment comment) :
    beginsArgument r c = false := by
  have htext := (Cursor.token_reads token).1.text
  have hsound := Cursor.token_sound token
  rw [kind] at htext hsound
  obtain ⟨hleading, -⟩ : ink comment.leading = [] ∧ ink comment.suffix = [] := hsound
  rw [Token.Kind.raw, Comment.raw] at htext
  cases hcase : comment.leading with
  | nil =>
    rw [hcase] at htext
    rw [beginsArgument_text htext (by decide) (by decide)]
    rfl
  | cons b s =>
    rw [hcase] at htext hleading
    refine beginsArgument_of_blank ?_
    rw [htext]
    exact Bytes.ink_eq_nil_iff.1 hleading b (by simp)

/-- No argument begins with a delimiter or a command with verbatim text. -/
theorem beginsArgument_of_command {c d : Cursor} {t : Token} {name : Bytes}
    (token : c.token = .ok (t, d)) (kind : t.kind = .command name) :
    beginsArgument r c = !(r.isVerb name || isDelimiter name) := by
  have hrest := (Cursor.token_reads token).1.text
  rw [kind, Token.Kind.raw, List.cons_append] at hrest
  obtain ⟨hmore, hkind⟩ := kind_of_backslash hrest token
  rw [beginsArgument_command hrest hmore, ← Token.Kind.command.inj (kind.symm.trans hkind)]

/-- **An argument begins at a node exactly if the node is edible.** -/
theorem Derives.beginsArgument {mode : Mode} {c d : Cursor} {n : Node}
    (h : Derives r (.item mode c n d)) (hspace : n.isSpace = false) :
    Parse.beginsArgument r c = n.isEdible := by
  cases h with
  | @leaf _ _ t _ l token plain =>
    have htext := (Cursor.token_reads token).1.text
    rw [← raw_plainLeaf? plain] at htext
    cases l with
    | text content =>
      obtain ⟨b, s, rfl, hb⟩ := plainLeaf?_text token plain
      rw [beginsArgument_text (by simpa [Leaf.raw, Leaf.rawPieces] using htext) hb.brace hb.backslash]
      rfl
    | space raw => cases hspace
    | parbreak raw => cases hspace
    | comment comment before =>
      exact beginsArgument_comment token (kind_of_plainLeaf?_comment plain)
    | verb | foreign | missing =>
      rcases plainLeaf?_cases plain with h | ⟨raw, -, h⟩ | ⟨raw, -, h⟩ | ⟨c, -, h⟩ <;> cases h
  | script token kind sign taken =>
    have htext := (Cursor.token_reads token).1.text
    rw [kind] at htext
    rcases sign with rfl | rfl <;>
    · rw [beginsArgument_text htext (by decide) (by decide)]
      rfl
  | group token kind content closed =>
    have htext := (Cursor.token_reads token).1.text
    rw [kind] at htext
    simp [Parse.beginsArgument, htext, Token.Kind.raw, Node.isEdible]
  | formula token kind content closed =>
    rcases formula?_cases kind with ⟨hk, -, rfl⟩ | ⟨hk, -, rfl⟩ | ⟨hk, -, rfl⟩
    · have htext := (Cursor.token_reads token).1.text
      rw [hk] at htext
      rw [beginsArgument_text htext (by decide) (by decide)]
      rfl
    · rw [beginsArgument_of_command token hk, show isDelimiter (bytes "(") = true from rfl, Bool.or_true]
      rfl
    · rw [beginsArgument_of_command token hk, show isDelimiter (bytes "[") = true from rfl, Bool.or_true]
      rfl
  | dollar token kind content closed half =>
    have htext := (Cursor.token_reads token).1.text
    rw [kind] at htext
    rw [beginsArgument_text htext (by decide) (by decide)]
    rfl
  | emptyDollars token kind =>
    have htext := (Cursor.token_reads token).1.text
    rw [kind] at htext
    rw [beginsArgument_text htext (by decide) (by decide)]
    rfl
  | environment token kind opening nodes taken content closed closing =>
    rw [beginsArgument_of_command token kind, show isDelimiter (bytes "begin") = true from rfl,
      Bool.or_true]
    unfold environmentShape
    split <;> rfl
  | verbatim token kind opening raw taken content =>
    rw [beginsArgument_of_command token kind, show isDelimiter (bytes "begin") = true from rfl,
      Bool.or_true]
    rfl
  | verb token kind known free starred star_eq content =>
    rw [beginsArgument_of_command token kind, known]
    rfl
  | command token kind known free taken =>
    rw [beginsArgument_of_command token kind, known, free]
    rfl

/-! ## where a node begins -/

/-- The opening of a formula is its first token. -/
theorem opening_formula? {k : Token.Kind} {closer : Closer} {shape : Shape}
    (h : formula? k = some (closer, shape)) :
    shape.isContainer = true ∧ shape.opening = k.raw ∧
      ∃ b s, k.raw = b :: s ∧ (b = Byte.dollar ∨ b = Byte.backslash) := by
  rcases formula?_cases h with ⟨rfl, -, rfl⟩ | ⟨rfl, -, rfl⟩ | ⟨rfl, -, rfl⟩
  · exact ⟨rfl, rfl, _, _, rfl, .inl rfl⟩
  · exact ⟨rfl, rfl, _, _, rfl, .inr rfl⟩
  · exact ⟨rfl, rfl, _, _, rfl, .inr rfl⟩

/-- A spelling of a node begins as the node was written, and not with white space or a comment. -/
structure Begins (c d : Cursor) (t : Bytes) (b : UInt8) : Prop where
  source : c.rest.head? = some b
  spelled : t.head? = some b
  solid : isBlank b = false
  code : b ≠ Byte.percent
  tail : Utf8.isTail b = false ∨ c.rest = t ++ d.rest

theorem Begins.of_active {c d : Cursor} {t : Bytes} {b : UInt8} (hc : c.rest.head? = some b)
    (ht : t.head? = some b)
    (hb : b = Byte.dollar ∨ b = Byte.backslash ∨ b = Byte.openBrace ∨ b = Byte.caret ∨
      b = Byte.underscore) : Begins c d t b := by
  refine ⟨hc, ht, ?_, ?_, .inl ?_⟩
  all_goals rcases hb with rfl | rfl | rfl | rfl | rfl <;> decide

theorem head?_of_token {c d : Cursor} {t : Token} {b : UInt8} {s : Bytes}
    (token : c.token = .ok (t, d)) (hraw : t.kind.raw = b :: s) : c.rest.head? = some b := by
  rw [(Cursor.token_reads token).1.text, hraw]
  rfl

/-- A leaf that is no white space and no comment is text. -/
theorem text_of_plainLeaf? {mode : Mode} {k : Token.Kind} {l : Leaf} {span : Span} {hints : Hints}
    (plain : plainLeaf? mode k = some l) (solid : (Node.leaf span hints l).isSpace = false)
    (code : (Node.leaf span hints l).comment? = none) : ∃ content, l = .text content := by
  rcases plainLeaf?_cases plain with rfl | ⟨raw, -, rfl⟩ | ⟨raw, -, rfl⟩ | ⟨c, -, rfl⟩
  · exact ⟨_, rfl⟩
  · cases solid
  · cases solid
  · cases code

theorem Derives.begins {keep : Bool} {mode : Mode} {c d : Cursor} {n : Node} {t : Bytes}
    (h : Derives r (.item mode c n d)) (solid : n.isSpace = false) (code : n.comment? = none)
    (hs : Spells r keep (.node (n.annotate r)) t) : ∃ b, Begins c d t b := by
  cases h with
  | @leaf _ _ tok _ l token plain =>
    have htext := (Cursor.token_reads token).1.text
    rw [← raw_plainLeaf? plain] at htext
    obtain ⟨content, rfl⟩ := text_of_plainLeaf? plain solid code
    have hcontent : (Leaf.text content).raw = content := by simp [Leaf.raw, Leaf.rawPieces]
    rw [hcontent] at htext
    cases hs
    obtain ⟨b, s, rfl, hb⟩ := plainLeaf?_text token plain
    exact ⟨b, by rw [htext]; rfl, rfl, hb.blank, hb.percent, .inr htext⟩
  | script token kind sign taken =>
    cases hs with
    | command taken =>
      refine ⟨_, .of_active (head?_of_token token (by rw [kind]; rfl)) rfl ?_⟩
      rcases sign with rfl | rfl <;> simp
    | container kind => cases kind
  | group token kind content closed =>
    cases hs
    exact ⟨_, .of_active (head?_of_token token (by rw [kind]; rfl)) rfl (by simp)⟩
  | formula token kind content closed =>
    obtain ⟨hshape, hopening, b, s, hraw, hb⟩ := opening_formula? kind
    have hstart : t.head? = some b := by
      cases hs with
      | container => simp [hopening, hraw]
      | command => cases hshape
      | verbatim => cases hshape
    exact ⟨b, .of_active (head?_of_token token hraw) hstart (by rcases hb with rfl | rfl <;> simp)⟩
  | dollar token kind content closed half =>
    cases hs
    exact ⟨_, .of_active (head?_of_token token (by rw [kind]; rfl)) rfl (by simp)⟩
  | emptyDollars token kind =>
    cases hs
    exact ⟨_, .of_active (head?_of_token token (by rw [kind]; rfl)) rfl (by simp)⟩
  | @environment _ _ _ _ name _ _ _ _ _ token kind opening nodes taken content closed closing =>
    have hstart : t.head? = some Byte.backslash := by
      unfold environmentShape at hs
      split at hs <;> cases hs <;> rfl
    exact ⟨_, .of_active (head?_of_token token (by rw [kind]; rfl)) hstart (by simp)⟩
  | verbatim token kind opening raw taken content =>
    cases hs with
    | verbatim taken kept =>
      exact ⟨_, .of_active (head?_of_token token (by rw [kind]; rfl)) rfl (by simp)⟩
    | container kind => cases kind
  | verb token kind known free starred star_eq content =>
    cases hs
    exact ⟨_, .of_active (head?_of_token token (by rw [kind]; rfl)) rfl (by simp)⟩
  | command token kind known free taken =>
    cases hs with
    | command taken =>
      exact ⟨_, .of_active (head?_of_token token (by rw [kind]; rfl)) rfl (by simp)⟩
    | container kind => cases kind

/-- What follows a node also follows what stands before it. -/
theorem Begins.follows {c d : Cursor} {t : Bytes} {b : UInt8} (h : Begins c d t b) {y : Bytes}
    (hy : Utf8.isTail b = true → Follows d.rest y) : Follows c.rest (t ++ y) := by
  obtain ⟨t', rfl⟩ := List.head?_eq_some_iff.1 h.spelled
  obtain ⟨x, hx⟩ := List.head?_eq_some_iff.1 h.source
  cases htail : Utf8.isTail b with
  | false =>
    rw [hx]
    exact Follows.cons htail _ _
  | true =>
    rw [h.tail.resolve_left (by simp [htail])]
    exact Follows.append _ (hy htail)

/-- A command that is named by the end of its line is just that. -/
theorem Derives.lineEnd {mode : Mode} {c d : Cursor} {n : Node} (h : Derives r (.item mode c n d))
    (hline : n.isLineEnd r = true) :
    ∃ span, n = .branch span {} (.command escape [Byte.newline]) [] [] ∧
      c.rest = Byte.backslash :: Byte.newline :: d.rest := by
  cases h with
  | @command _ _ t d' name args _ token kind known free taken =>
    simp only [Node.isLineEnd, Bool.and_eq_true, beq_iff_eq, List.isEmpty_iff] at hline
    obtain ⟨⟨-, rfl⟩, hargs⟩ := hline
    rw [hargs] at taken
    cases taken
    refine ⟨_, rfl, ?_⟩
    rw [(Cursor.token_reads token).1.text, kind]
    rfl
  | script => simp [Node.isLineEnd] at hline
  | formula token kind =>
    rcases formula?_cases kind with ⟨-, -, rfl⟩ | ⟨-, -, rfl⟩ | ⟨-, -, rfl⟩ <;> cases hline
  | environment =>
    unfold environmentShape at hline
    split at hline <;> cases hline
  | leaf | group | dollar | emptyDollars | verbatim | verb => cases hline

/-! ## what closes a sequence -/

/-- A text that begins with what closes a sequence. -/
def Closer.Closes : Closer → Bytes → Prop
  | .document, y => y = []
  | .brace, y => y.head? = some Byte.closeBrace
  | .bracket _, y => y.head? = some Byte.closeBracket
  | .environment, y => ∃ z, y = (Token.Kind.command (bytes "end")).raw ++ Byte.openBrace :: z
  | .dollar, y => y.head? = some Byte.dollar
  | .dollars, y => ∃ z, y = Token.Kind.dollars.raw ++ z
  | .command name, y =>
    (name = bytes ")" ∨ name = bytes "]") ∧ ∃ z, y = (Token.Kind.command name).raw ++ z

theorem Closer.Closes.pass {closer later : Closer} {k : Token.Kind} {y : Bytes}
    (h : closer.Closes y) (hpass : closer.pass k = some later) : later.Closes y := by
  cases closer with
  | bracket depth =>
    simp only [Closer.pass] at hpass
    repeat' split at hpass
    all_goals cases hpass
    all_goals exact h
  | document | brace | environment | dollar | dollars | command =>
    simp only [Closer.pass] at hpass
    repeat' split at hpass
    all_goals cases hpass
    all_goals exact h

/-- The first byte of what closes a sequence. -/
theorem Closer.Closes.head {closer : Closer} {y : Bytes} (h : closer.Closes y) :
    y = [] ∨ ∃ b z, y = b :: z ∧ (b = Byte.closeBrace ∨ b = Byte.closeBracket ∨ b = Byte.dollar ∨
      b = Byte.backslash ∧ isDelimiter (Token.commandName z) = true) := by
  cases closer with
  | document => exact .inl h
  | brace =>
    obtain ⟨z, rfl⟩ := List.head?_eq_some_iff.1 h
    exact .inr ⟨_, _, rfl, by simp⟩
  | bracket =>
    obtain ⟨z, rfl⟩ := List.head?_eq_some_iff.1 h
    exact .inr ⟨_, _, rfl, by simp⟩
  | dollar =>
    obtain ⟨z, rfl⟩ := List.head?_eq_some_iff.1 h
    exact .inr ⟨_, _, rfl, by simp⟩
  | environment =>
    obtain ⟨z, rfl⟩ := h
    exact .inr ⟨_, _, rfl, .inr (.inr (.inr ⟨rfl, rfl⟩))⟩
  | dollars =>
    obtain ⟨z, rfl⟩ := h
    exact .inr ⟨_, _, rfl, by simp⟩
  | command name =>
    obtain ⟨hname, z, rfl⟩ := h
    refine .inr ⟨_, _, rfl, .inr (.inr (.inr ⟨rfl, ?_⟩))⟩
    rcases hname with rfl | rfl <;> rfl

theorem Closer.Closes.stop {closer : Closer} {y : Bytes} (h : closer.Closes y) :
    y.head?.all isStop = true := by
  rcases h.head with rfl | ⟨b, z, rfl, rfl | rfl | rfl | ⟨rfl, -⟩⟩ <;> rfl

theorem Closer.Closes.solid {closer : Closer} {y : Bytes} (h : closer.Closes y) :
    y.head?.any isBlank = false := by
  rcases h.head with rfl | ⟨b, z, rfl, rfl | rfl | rfl | ⟨rfl, -⟩⟩ <;> rfl

theorem Closer.Closes.code {closer : Closer} {y : Bytes} (h : closer.Closes y) :
    y.head? ≠ some Byte.percent := by
  intro hy
  rcases h.head with rfl | ⟨b, z, rfl, rfl | rfl | rfl | ⟨rfl, -⟩⟩ <;> cases hy

/-- No argument begins with what closes a sequence. -/
theorem Closer.Closes.inert {closer : Closer} {y : Bytes} (h : closer.Closes y) :
    Parse.beginsArgument r ⟨0, false, y⟩ = false := by
  rcases h.head with rfl | ⟨b, z, rfl, hb⟩
  · rfl
  rcases hb with rfl | rfl | rfl | ⟨rfl, hname⟩
  · rfl
  · rfl
  · rfl
  · rw [beginsArgument_command rfl ?_, hname, Bool.or_true]
    · rfl
    · rintro rfl
      cases hname

/-- A place where a sequence is closed has a token that closes it. -/
theorem Closer.Closes.token {closer : Closer} {k : Token.Kind} {y : Bytes} {e : Cursor}
    (h : closer.Closes y) (hclosed : closer = .document ∨ closer.pass k = none) (he : e.rest = y) :
    ∃ t d, e.token = .ok (t, d) ∧ (closer.pass t.kind = none ∨ t.kind = .endOfInput) := by
  have read (k' : Token.Kind) {z : Bytes} (hy : y = k'.raw ++ z)
      (hscan : Token.scan? e.inked y = some k')
      (hends : closer.pass k' = none ∨ k' = .endOfInput) :
      ∃ t d, e.token = .ok (t, d) ∧ (closer.pass t.kind = none ∨ t.kind = .endOfInput) := by
    obtain ⟨t, d, htoken, rfl, -⟩ := Cursor.token_of_scan? (he.trans hy) (he ▸ hscan)
    exact ⟨t, d, htoken, hends⟩
  cases closer with
  | document =>
    cases h
    exact read .endOfInput (z := []) rfl rfl (.inr rfl)
  | brace =>
    obtain ⟨z, rfl⟩ := List.head?_eq_some_iff.1 h
    exact read .closeBrace rfl rfl (.inl rfl)
  | bracket depth =>
    obtain ⟨z, rfl⟩ := List.head?_eq_some_iff.1 h
    have hdepth : depth = 0 := by
      simp only [Closer.pass, reduceCtorEq, false_or] at hclosed
      repeat' split at hclosed
      all_goals simp at hclosed
      rfl
    subst hdepth
    exact read .closeBracket rfl rfl (.inl rfl)
  | environment =>
    obtain ⟨z, rfl⟩ := h
    exact read (.command (bytes "end")) rfl rfl (.inl rfl)
  | dollar =>
    obtain ⟨z, rfl⟩ := List.head?_eq_some_iff.1 h
    by_cases hz : z.head? = some Byte.dollar
    · obtain ⟨z, rfl⟩ := List.head?_eq_some_iff.1 hz
      exact read .dollars rfl rfl (.inl rfl)
    · refine read .dollar rfl ?_ (.inl rfl)
      change some (Token.scanDollar z) = _
      rw [Token.scanDollar, if_neg hz]
  | dollars =>
    obtain ⟨z, rfl⟩ := h
    exact read .dollars rfl rfl (.inl rfl)
  | command name =>
    obtain ⟨hname, z, rfl⟩ := h
    refine read (.command name) rfl ?_ (.inl (by simp [Closer.pass]))
    rcases hname with rfl | rfl <;> rfl

/-! ## arguments that are there and arguments that are not -/

theorem feeds_rest (c : Cursor) : feeds r c.rest = Parse.beginsArgument r c.skipSpace.2 := by
  have h := isAbsent_mandatory (r := r) c
  rw [isAbsent] at h
  simpa using h.symm

/-- An argument that was read at a place: one in brackets, or one that a mandatory argument could be. -/
inductive ArgumentAt (r : Registry) (c : Cursor) : Node → Prop
  | optional {s h closing content} (sign : c.peek? = some Byte.openBracket) :
      ArgumentAt r c (.branch s h (.argument [] [Byte.openBracket] closing) [] content)
  | mandatory {s h space opening closing content} (solid : opening ≠ [Byte.openBracket])
      (fed : feeds r c.rest = true)
      (first : space = [] → opening = [] → (Node.rawAll content).head? = c.peek?) :
      ArgumentAt r c (.branch s h (.argument space opening closing) [] content)

/-- The first argument of a list was read where the list begins. -/
def Judgement.HeadArgument (r : Registry) : Judgement → Prop
  | .arguments _ _ c (a :: _) _ => ArgumentAt r c a
  | _ => True

/-- Where no space was skipped, a place is the one behind it. -/
theorem peek?_skipSpace {c : Cursor} (h : c.skipSpace.1 = []) : c.skipSpace.2.peek? = c.peek? := by
  have htext := (Cursor.skipSpace_reads c).text
  rw [h, List.nil_append] at htext
  rw [Cursor.peek?, Cursor.peek?, htext]

theorem feeds_of_peek? {c : Cursor} {b : UInt8} (h : c.peek? = some b)
    (hbrace : b ≠ Byte.openBrace) (hbackslash : b ≠ Byte.backslash) (hblank : isBlank b = false) :
    feeds r c.rest = (b ≠ 0 && !isActive b && !isBlank b) := by
  obtain ⟨s, hs⟩ := List.head?_eq_some_iff.1 h
  rw [hs, feeds_of_solid (by simpa using hblank)]
  exact beginsArgument_text rfl hbrace hbackslash

theorem ne_of_inert {b a : UInt8} (h : (b ≠ 0 && !isActive b && !isBlank b) = true)
    (ha : isActive a = true) : b ≠ a := by
  rintro rfl
  simp [ha] at h

theorem Derives.headArgument {j : Judgement} (h : Derives r j) : j.HeadArgument r := by
  induction h with
  | stop | next | leaf | script | group | formula | dollar | emptyDollars | environment | verbatim
  | verb | command | done => trivial
  | @absent _ _ _ _ args _ missing others ih => cases args <;> exact ih
  | star sign others =>
    refine .mandatory (by decide) ?_ (fun _ _ => sign.symm)
    rw [feeds_of_peek? sign (by decide) (by decide) (by decide)]
    decide
  | optional sign content closed others => exact .optional sign
  | braced sign content closed others =>
    refine .mandatory (by decide) ?_ (fun _ h => by cases h)
    obtain ⟨s, hs⟩ := List.head?_eq_some_iff.1 sign
    rw [feeds_rest]
    simp [Parse.beginsArgument, hs]
  | bareCommand token kind known free others =>
    refine .mandatory (by decide) ?_ fun hspace _ => ?_
    · rw [feeds_rest, beginsArgument_of_command token kind, known, free]
      rfl
    · rw [← peek?_skipSpace hspace, Cursor.peek?, head?_of_token token (by rw [kind]; rfl)]
      simp [Node.raw_branch, Shape.opening, escape]
  | bareCharacter sign inert content others =>
    refine .mandatory (by decide) ?_ fun hspace _ => ?_
    · obtain ⟨s, hs⟩ := List.head?_eq_some_iff.1 sign
      rw [feeds_rest, beginsArgument_text hs (ne_of_inert inert (by decide))
        (ne_of_inert inert (by decide)), inert]
    · rw [← peek?_skipSpace hspace, sign]
      obtain ⟨s, rfl⟩ := Cursor.character_head content sign
      simp [Node.raw_leaf, Leaf.raw, Leaf.rawPieces]

/-- An argument that is not there is no argument that is there. -/
theorem ArgumentAt.fits {c : Cursor} {kind : ArgKind} {a : Node} (h : ArgumentAt r c a)
    (habsent : isAbsent r c kind = true) : kind.fits a = false := by
  cases h with
  | optional sign =>
    cases kind with
    | star => rfl
    | optional => simp [isAbsent, sign] at habsent
    | mandatory => rfl
  | @mandatory _ _ space opening _ content solid fed first =>
    cases kind with
    | star =>
      refine Bool.eq_false_iff.2 fun hfits => ?_
      simp only [ArgKind.fits, Bool.and_eq_true, List.isEmpty_iff, beq_iff_eq] at hfits
      obtain ⟨⟨rfl, rfl⟩, hraw⟩ := hfits
      have hpeek := first rfl rfl
      rw [hraw] at hpeek
      simp [isAbsent, ← hpeek] at habsent
    | optional => simpa [ArgKind.fits] using solid
    | mandatory =>
      rw [isAbsent_mandatory, fed] at habsent
      cases habsent

/-- A kind that is absent stays one that is waited for. -/
theorem isHungry_of_absent {kind : ArgKind} {kinds : List ArgKind} {mode : Mode} {c d : Cursor}
    {args : List Node} (missing : isAbsent r c kind = true)
    (others : Derives r (.arguments mode kinds c args d))
    (h : ArgKind.isHungry kinds args = true) : ArgKind.isHungry (kind :: kinds) args = true := by
  cases args with
  | nil =>
    have hkinds : ArgKind.waiting kinds [] = kinds := by cases kinds <;> rfl
    rw [ArgKind.isHungry, hkinds] at h
    rw [ArgKind.isHungry, ArgKind.waiting, List.contains_cons, h, Bool.or_true]
  | cons a as =>
    have hfits : kind.fits a = false := ArgumentAt.fits others.headArgument missing
    rw [ArgKind.isHungry, ArgKind.waiting, hfits]
    exact h

theorem isHungry_of_present {kind : ArgKind} {kinds : List ArgKind} {a : Node} {args : List Node}
    (hfits : kind.fits a = true) :
    ArgKind.isHungry (kind :: kinds) (a :: args) = ArgKind.isHungry kinds args := by
  rw [ArgKind.isHungry, ArgKind.waiting, hfits, if_pos rfl]
  rfl

/-- An argument that is absent in the source is absent in a text that follows alike. -/
theorem isAbsent_of_follows {kind : ArgKind} {c e : Cursor} (h : isAbsent r c kind = true)
    (hfollows : Follows c.rest e.rest) (hfeeds : kind = .mandatory → feeds r e.rest = false) :
    isAbsent r e kind = true := by
  have hhead (a : UInt8) (ha : isStop a = false) (hc : c.peek? ≠ some a) : e.peek? ≠ some a := by
    intro he
    have := hfollows.head (p := (· == a))
      (fun b hb => by
        simp only [beq_eq_false_iff_ne]
        rintro rfl
        rw [ha] at hb
        cases hb)
      (by
        cases hx : c.rest.head? with
        | none => rfl
        | some b =>
          simp only [Option.any_some, beq_eq_false_iff_ne]
          rintro rfl
          exact hc hx)
    rw [show e.rest.head? = some a from he] at this
    simp at this
  cases kind with
  | star =>
    simp only [isAbsent, decide_eq_true_eq] at h ⊢
    exact hhead _ (by decide) h
  | optional =>
    simp only [isAbsent, decide_eq_true_eq] at h ⊢
    exact hhead _ (by decide) h
  | mandatory =>
    rw [isAbsent_mandatory, hfeeds rfl]
    rfl

end Parse

end TexTidy
