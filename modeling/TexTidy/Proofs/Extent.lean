import Mathlib.Logic.Relation
import TexTidy.Proofs.Lexeme
import TexTidy.Proofs.Lexing

/-!
# TexTidy.Proofs.Extent

Where something ends that was read does not depend on the mode it was read in.

A source can be gone through without reading it. Most bytes are passed one by one, a comment or the name of a command
as one token, and what a brace, an environment or verbatim text takes up as one unit. Dollar signs are bytes like
others, since one reading opens a formula where another closes it. Only where brackets are counted, up to the end of
an optional argument, is a formula a unit, since its brackets do not count (`Stride`).

* `Derives.walks`: what is read is gone through in this way.
* `stride_unique`: there is one way to go on. A unit ends at the first place that no way leads past, for all modes.
-/

namespace TexTidy.Parse

/-! ## strides -/

/-- What is passed next. -/
inductive Gait where
  /-- Nothing: what stands here closes something. -/
  | halt
  | byte
  | bracket
  | token
  /-- A token and all that it opens. -/
  | unit

/-- What is passed next at the start of a text. Brackets may be counted. -/
def gait (r : Registry) (counting : Bool) : Bytes → Gait
  | [] => .halt
  | b :: s =>
    if b = Byte.openBracket ∨ b = Byte.closeBracket then .bracket
    else if b = Byte.percent then .token
    else if b = Byte.openBrace then .unit
    else if b = Byte.closeBrace then .halt
    else if b = Byte.dollar then if counting then .unit else .byte
    else if b = Byte.backslash then
      if r.isVerb (Token.commandName s) || isDelimiter (Token.commandName s) then .unit else .token
    else .byte

/-- How many brackets are open behind one more, if they are counted. The one that closes none of them is not passed. -/
def passBracket (b : UInt8) : Option Nat → Option (Option Nat)
  | none => some none
  | some k =>
    if b = Byte.openBracket then some (some (k + 1))
    else match k with
      | 0 => none
      | k + 1 => some (some k)

/-- To pass what is next, with the number of open brackets if they are counted. A unit may be read in any mode. -/
inductive Stride (r : Registry) : Option Nat × Cursor → Option Nat × Cursor → Prop
  | byte {k c} (pace : gait r k.isSome c.rest = .byte) : Stride r (k, c) (k, c.advance 1)
  | bracket {k k' c b} (pace : gait r k.isSome c.rest = .bracket) (sign : c.peek? = some b)
      (pass : passBracket b k = some k') : Stride r (k, c) (k', c.advance 1)
  | token {k c t d} (pace : gait r k.isSome c.rest = .token) (token : c.token = .ok (t, d)) : Stride r (k, c) (k, d)
  | unit {k mode c n d} (pace : gait r k.isSome c.rest = .unit) (item : Derives r (.item mode c n d)) :
      Stride r (k, c) (k, d)

abbrev Walk (r : Registry) : Option Nat × Cursor → Option Nat × Cursor → Prop :=
  Relation.ReflTransGen (Stride r)

/-- What is passed next where a token begins. The blanks in front of a comment are bytes. -/
def gaitOf (r : Registry) (counting : Bool) : Token.Kind → Gait
  | .endOfInput | .closeBrace => .halt
  | .text _ | .space _ | .parbreak _ | .symbol _ => .byte
  | .comment remark => if remark.leading = [] then .token else .byte
  | .openBracket | .closeBracket => .bracket
  | .openBrace => .unit
  | .dollar | .dollars => if counting then .unit else .byte
  | .command name => if r.isVerb name || isDelimiter name then .unit else .token

variable {r : Registry} {mode mode' : Mode} {closer : Closer} {c d e f : Cursor} {t : Token} {k : Option Nat}
  {n n' : Node} {p q q' : Option Nat × Cursor} {body body' : Sequence}

theorem gait_of_idle {b : UInt8} (h : isActive b = false) (counting : Bool) (s : Bytes) :
    gait r counting (b :: s) = .byte := by
  simp only [isActive, Bool.or_eq_false_iff, beq_eq_false_iff_ne] at h
  obtain ⟨⟨⟨⟨⟨⟨⟨⟨⟨⟨⟨h1, h2⟩, h3⟩, h4⟩, h5⟩, h6⟩, h7⟩, -⟩, -⟩, -⟩, -⟩, -⟩ := h
  rw [gait, if_neg (by simp [h4, h5]), if_neg h7, if_neg h2, if_neg h3, if_neg h6, if_neg h1]

theorem isActive_of_isBlank {b : UInt8} (h : isBlank b = true) : isActive b = false := by
  simp only [isBlank, Bool.or_eq_true, beq_iff_eq] at h
  rcases h with ((rfl | rfl) | rfl) | rfl <;> rfl

theorem gait_single {b : UInt8} {kind : Token.Kind} (h : Token.single? b = some kind) (counting : Bool) (s : Bytes) :
    gait r counting (b :: s) = gaitOf r counting kind := by
  unfold Token.single? at h
  split at h
  · next hb => cases h; rw [hb]; rfl
  split at h
  · next hb => cases h; rw [hb]; rfl
  split at h
  · next hb => cases h; rw [hb]; rfl
  split at h
  · next hb => cases h; rw [hb]; rfl
  split at h
  · next hb =>
    cases h
    rcases hb with rfl | rfl | rfl | rfl | rfl <;> rfl
  · cases h

theorem gait_of_token (counting : Bool) (token : c.token = .ok (t, d)) :
    gait r counting c.rest = gaitOf r counting t.kind := by
  have hscan := Cursor.scan?_of_token token
  cases hrest : c.rest with
  | nil =>
    rw [hrest] at hscan
    rw [← Option.some.inj hscan]
    rfl
  | cons b s =>
    rw [hrest] at hscan
    rcases Token.scan?_cases hscan with
      hk | ⟨rfl, hk⟩ | ⟨rfl, hk⟩ | ⟨rfl, -, hk⟩ | ⟨hblank, hk⟩ | ⟨hactive, -, hk⟩
    · exact gait_single hk counting s
    · rw [hk]
      rfl
    · rcases Token.scanDollar_cases s with h | h <;> rw [hk, h] <;> rfl
    · rw [hk]
      rfl
    · rw [gait_of_idle (isActive_of_isBlank hblank), hk, Token.scanBlank, List.takeWhile_cons_of_pos hblank]
      split
      · rfl
      · split <;> rfl
    · rw [gait_of_idle hactive, hk]
      rfl

/-! ### what is passed -/

theorem Stride.length_lt (h : Stride r p q) : q.2.rest.length < p.2.rest.length := by
  have hstep {c : Cursor} (h : c.rest ≠ []) : (c.advance 1).rest.length < c.rest.length := by
    have := List.length_pos_iff.2 h
    simp only [Cursor.rest_advance, List.length_drop]
    omega
  cases h with
  | byte pace =>
    refine hstep fun hnil => ?_
    rw [hnil] at pace
    cases pace
  | bracket pace sign pass =>
    refine hstep fun hnil => ?_
    rw [hnil] at pace
    cases pace
  | token pace token =>
    refine Cursor.token_length token fun hend => ?_
    rw [gait_of_token _ token, hend] at pace
    cases pace
  | unit pace item => exact item.item_length

/-- Bytes that are passed one by one. -/
theorem walk_bytes {s : Bytes} (hreads : c.Reads s d) (h : ∀ b ∈ s, ∀ z, gait r k.isSome (b :: z) = .byte) :
    Walk r (k, c) (k, d) := by
  induction s generalizing c with
  | nil =>
    cases hreads.place
    exact .refl
  | cons b s ih =>
    have hrest : c.rest = b :: (s ++ d.rest) := hreads.text
    have hnext : (c.advance 1).Reads s d := ⟨by simp [hrest], hreads.place⟩
    refine .head (.byte ?_) (ih hnext fun a ha => h a (List.mem_cons_of_mem b ha))
    rw [hrest]
    exact h b List.mem_cons_self _

theorem walk_idle {s : Bytes} (hreads : c.Reads s d) (h : ∀ b ∈ s, isActive b = false) : Walk r (k, c) (k, d) :=
  walk_bytes hreads fun b hb _ => gait_of_idle (h b hb) _ _

theorem walk_dollars {s : Bytes} (hreads : c.Reads s d) (h : ∀ b ∈ s, b = Byte.dollar) : Walk r (none, c) (none, d) :=
  walk_bytes hreads fun b hb _ => by rw [h b hb]; rfl

theorem walk_skipSpace (c : Cursor) : Walk r (k, c) (k, c.skipSpace.2) := by
  refine walk_idle c.skipSpace_reads fun b hb => ?_
  unfold Cursor.skipSpace at hb
  dsimp only at hb
  split at hb
  · cases hb
  · exact isActive_of_isBlank (List.mem_takeWhile_imp (p := isBlank) hb)

theorem walk_character {b : UInt8} {char : Bytes} (sign : c.peek? = some b)
    (inert : (b ≠ 0 && !isActive b && !isBlank b) = true) (h : c.character = (char, d)) : Walk r (k, c) (k, d) := by
  obtain ⟨s, hs⟩ := List.head?_eq_some_iff.1 sign
  obtain ⟨⟨-, hactive⟩, -⟩ : (b ≠ 0 ∧ isActive b = false) ∧ isBlank b = false := by simpa using inert
  obtain ⟨tail, htail, hall⟩ := Utf8.take_first b s
  have hreads := c.character_reads
  rw [h] at hreads
  have hchar : char = b :: tail := by
    rw [Cursor.character, hs] at h
    exact (Prod.mk.inj h).1.symm.trans htail
  refine walk_idle hreads fun a ha => ?_
  rcases List.mem_cons.1 (hchar ▸ ha) with rfl | ha
  · exact hactive
  · exact Utf8.isActive_of_isTail (hall a ha)

/-- A comment is passed behind the blanks that belong to it. -/
theorem walk_comment {remark : Comment} (token : c.token = .ok (t, d)) (kind : t.kind = .comment remark) :
    Walk r (k, c) (k, d) := by
  -- behind the blanks the comment is a token as well, which ends at the same place
  have hplain {c : Cursor} {after : Bytes} (hrest : c.rest = Byte.percent :: after)
      (hplace : d = c.advance (Token.scanComment c.inked [] after).raw.length) : Walk r (k, c) (k, d) := by
    have htoken : c.token = .ok (⟨.comment (Token.scanComment c.inked [] after),
        ⟨c.pos, c.pos + (Token.scanComment c.inked [] after).raw.length⟩⟩, d) := by
      rw [Cursor.token, hrest, hplace]
      rfl
    exact .single (.token (by rw [hrest]; rfl) htoken)
  have hscan := Cursor.scan?_of_token token
  have hplace := (Cursor.token_reads token).1.place
  rw [kind] at hscan hplace
  cases hrest : c.rest with
  | nil =>
    rw [hrest] at hscan
    cases hscan
  | cons b s =>
    rw [hrest] at hscan
    rcases Token.scan?_cases hscan with
      hk | ⟨rfl, hk⟩ | ⟨-, hk⟩ | ⟨-, -, hk⟩ | ⟨hblank, hk⟩ | ⟨-, -, hk⟩
    · rcases Token.single?_cases hk with h | h | h | h | h <;> cases h
    · cases hk
      exact hplain hrest hplace
    · rcases Token.scanDollar_cases s with h | h <;> rw [h] at hk <;> cases hk
    · cases hk
    · rw [Token.scanBlank, ← hrest] at hk
      split at hk
      · next hcomment =>
        cases hk
        obtain ⟨after, hafter⟩ := List.head?_eq_some_iff.1 hcomment.2
        have hsplit : c.rest = c.rest.takeWhile isBlank ++ Byte.percent :: after := by
          rw [← hafter, List.takeWhile_append_dropWhile]
        have hreads := Cursor.reads_of_rest hsplit
        refine (walk_idle hreads fun a ha => isActive_of_isBlank (List.mem_takeWhile_imp ha)).trans ?_
        refine hplain (List.append_cancel_left (hreads.text.symm.trans hsplit)) ?_
        rw [hafter, List.tail_cons, Token.Kind.raw, Token.raw_scanComment _ false, List.length_append,
          Cursor.advance_add] at hplace
        rw [hplace, Token.raw_scanComment _ false []]
        rfl
      · split at hk <;> cases hk
    · cases hk

/-- A leaf of one token is passed, unless it is a bracket. -/
theorem walk_leaf {l : Leaf} (token : c.token = .ok (t, d)) (plain : plainLeaf? mode t.kind = some l)
    (hbracket : gait r k.isSome c.rest ≠ .bracket) : Walk r (k, c) (k, d) := by
  have hreads := (Cursor.token_reads token).1
  have hscan := Cursor.scan?_of_token token
  rw [gait_of_token _ token] at hbracket
  cases hkind : t.kind with
  | text content =>
    rw [hkind] at hreads
    refine walk_idle hreads fun b hb => ?_
    have hplain : Token.isPlain b = true := List.mem_takeWhile_imp ((Cursor.text_of_token token hkind).1 ▸ hb)
    simp only [Token.isPlain, Bool.and_eq_true, Bool.not_eq_true'] at hplain
    exact hplain.1
  | space raw | parbreak raw =>
    rw [hkind] at hreads hscan
    obtain ⟨hraw, -⟩ : c.rest.takeWhile isBlank = raw ∧ _ := Token.white_of_scan? hscan (by simp)
    exact walk_idle hreads fun b hb => isActive_of_isBlank (List.mem_takeWhile_imp (hraw ▸ hb))
  | comment remark => exact walk_comment token hkind
  | symbol char =>
    rw [hkind] at hreads
    refine hreads.place ▸ .single (.byte ?_)
    rw [gait_of_token _ token, hkind]
    rfl
  | openBracket | closeBracket =>
    rw [hkind] at hbracket
    exact absurd rfl hbracket
  | _ =>
    rw [hkind] at plain
    cases plain

/-- A bracket is passed and counted. -/
theorem walk_bracket {b : UInt8} {k' : Option Nat} (token : c.token = .ok (t, d)) (raw : t.kind.raw = [b])
    (kind : b = Byte.openBracket ∨ b = Byte.closeBracket) (pass : passBracket b k = some k') :
    Walk r (k, c) (k', d) := by
  have hreads := (Cursor.token_reads token).1
  rw [raw] at hreads
  have hrest : c.rest = b :: d.rest := hreads.text
  refine hreads.place ▸ .single (.bracket (b := b) ?_ (by rw [Cursor.peek?, hrest]; rfl) pass)
  rw [hrest, gait, if_pos kind]

theorem walk_token (token : c.token = .ok (t, d)) (pace : gaitOf r k.isSome t.kind = .token) : Walk r (k, c) (k, d) :=
  .single (.token ((gait_of_token _ token).trans pace) token)

theorem walk_unit (token : c.token = .ok (t, d)) (pace : gaitOf r k.isSome t.kind = .unit)
    (item : Derives r (.item mode c n e)) : Walk r (k, c) (k, e) :=
  .single (.unit ((gait_of_token _ token).trans pace) item)

theorem gaitOf_delimiter {counting : Bool} {name : Bytes} (h : isDelimiter name = true) :
    gaitOf r counting (.command name) = .unit := by
  simp [gaitOf, h]

theorem gaitOf_command {counting : Bool} {name : Bytes} (known : r.isVerb name = false)
    (free : isDelimiter name = false) : gaitOf r counting (.command name) = .token := by
  simp [gaitOf, known, free]

/-! ## what is read is passed -/

/-- What is read is passed. A sequence that waits for a closing bracket keeps count of the brackets in it. -/
def Judgement.Walks (r : Registry) : Judgement → Prop
  | .sequence _ closer c s => Walk r (none, c) (none, s.before) ∧
      ∀ j k, closer = .bracket j → s.isOpen = false → Walk r (some (k + j), c) (some k, s.before)
  | .item _ c _ d => ∀ k : Option Nat, gait r k.isSome c.rest ≠ .bracket → Walk r (k, c) (k, d)
  | .arguments _ _ c _ d => ∀ k, Walk r (k, c) (k, d)

/-- A bracket is a node by itself. -/
theorem Derives.stop_of_bracket (h : Derives r (.item mode c n e)) (token : c.token = .ok (t, d))
    (kind : t.kind = .openBracket ∨ t.kind = .closeBracket) : e = d := by
  have hrun := h.found _ (Nat.le_refl _) token
  rcases kind with hk | hk <;> simp only [item, hk] at hrun <;> cases hrun <;> rfl

theorem kind_of_bracket {counting : Bool} (token : c.token = .ok (t, d)) (h : gait r counting c.rest = .bracket) :
    t.kind = .openBracket ∨ t.kind = .closeBracket := by
  rw [gait_of_token _ token] at h
  revert h
  fun_cases gaitOf r counting t.kind <;> simp_all

/-- What a sequence that waits for a closing bracket does with a token. -/
theorem pass_bracket_cases (j : Nat) (kind : Token.Kind) :
    kind = .openBracket ∧ (Closer.bracket j).pass kind = some (.bracket (j + 1)) ∨
    kind = .closeBracket ∧ (j = 0 ∧ (Closer.bracket j).pass kind = none ∨
      ∃ i, j = i + 1 ∧ (Closer.bracket j).pass kind = some (.bracket i)) ∨
    kind ≠ .openBracket ∧ kind ≠ .closeBracket ∧ (Closer.bracket j).pass kind = some (.bracket j) := by
  by_cases hopen : kind = .openBracket
  · exact .inl ⟨hopen, by rw [hopen]; rfl⟩
  by_cases hclose : kind = .closeBracket
  · subst hclose
    cases j with
    | zero => exact .inr (.inl ⟨rfl, .inl ⟨rfl, rfl⟩⟩)
    | succ i => exact .inr (.inl ⟨rfl, .inr ⟨i, rfl, rfl⟩⟩)
  · exact .inr (.inr ⟨hopen, hclose, by simp [Closer.pass, hopen, hclose]⟩)

theorem walks_stop (closed : closer.pass t.kind = none ∨ t.kind = .endOfInput) :
    (Judgement.sequence mode closer c ⟨[], t, c, d⟩).Walks r := by
  refine ⟨.refl, fun j k hcloser hopen => ?_⟩
  have hpass := closed.resolve_right (by simpa [Sequence.isOpen] using hopen)
  subst hcloser
  rcases pass_bracket_cases j t.kind with ⟨-, h⟩ | ⟨-, ⟨rfl, -⟩ | ⟨i, -, h⟩⟩ | ⟨-, -, h⟩
  · cases hpass.symm.trans h
  · exact .refl
  · cases hpass.symm.trans h
  · cases hpass.symm.trans h

theorem walks_next {later : Closer} {tail : Sequence} (token : c.token = .ok (t, d))
    (pass : closer.pass t.kind = some later) (head : Derives r (.item mode c n e))
    (ihHead : (Judgement.item mode c n e).Walks r) (ihRest : (Judgement.sequence mode later e tail).Walks r) :
    (Judgement.sequence mode closer c { tail with nodes := link n tail.nodes }).Walks r := by
  refine ⟨.trans ?_ ihRest.1, fun j k hcloser hclosed => ?_⟩
  · by_cases hgait : gait r false c.rest = .bracket
    · have hkind := kind_of_bracket token hgait
      rw [head.stop_of_bracket token hkind]
      rcases hkind with hk | hk
      · exact walk_bracket token (by rw [hk]; rfl) (.inl rfl) rfl
      · exact walk_bracket token (by rw [hk]; rfl) (.inr rfl) rfl
    · exact ihHead none hgait
  · subst hcloser
    rcases pass_bracket_cases j t.kind with ⟨hk, h⟩ | ⟨hk, ⟨-, h⟩ | ⟨i, rfl, h⟩⟩ | ⟨hopen, hclose, h⟩
    · cases pass.symm.trans h
      refine .trans ?_ (ihRest.2 (j + 1) k rfl hclosed)
      rw [head.stop_of_bracket token (.inl hk)]
      exact walk_bracket token (by rw [hk]; rfl) (.inl rfl) rfl
    · cases pass.symm.trans h
    · cases pass.symm.trans h
      refine .trans ?_ (ihRest.2 i k rfl hclosed)
      rw [head.stop_of_bracket token (.inr hk)]
      exact walk_bracket token (by rw [hk]; rfl) (.inr rfl) rfl
    · cases pass.symm.trans h
      refine .trans (ihHead _ fun hgait => ?_) (ihRest.2 j k rfl hclosed)
      exact (kind_of_bracket token hgait).elim hopen hclose

theorem walks_formula {shape : Shape} (token : c.token = .ok (t, d)) (kind : formula? t.kind = some (closer, shape))
    (content : Derives r (.sequence .math closer d body)) (closed : body.isOpen = false)
    (ih : (Judgement.sequence .math closer d body).Walks r) :
    (Judgement.item mode c (.branch ⟨c.pos, body.cursor.pos⟩ {} shape [] body.nodes) body.cursor).Walks r := by
  intro k _
  have hitem : Derives r (.item mode c _ body.cursor) := .formula token kind content closed
  rcases formula?_cases kind with ⟨hk, rfl, -⟩ | ⟨hk, rfl, -⟩ | ⟨hk, rfl, -⟩
  · cases k with
    | none =>
      have hopening := (Cursor.token_reads token).1
      have hclosing := (Cursor.token_reads content.stops).1
      have hends : body.last.kind = .dollars := content.ends closed
      rw [hk] at hopening
      rw [hends] at hclosing
      have hdollars : ∀ b ∈ Token.Kind.dollars.raw, b = Byte.dollar := by simp [Token.Kind.raw]
      exact ((walk_dollars hopening hdollars).trans ih.1).trans (walk_dollars hclosing hdollars)
    | some k => exact walk_unit token (by rw [hk]; rfl) hitem
  · exact walk_unit token (by rw [hk]; exact gaitOf_delimiter (by decide)) hitem
  · exact walk_unit token (by rw [hk]; exact gaitOf_delimiter (by decide)) hitem

theorem walks_dollar {stop : Cursor} (token : c.token = .ok (t, d)) (kind : t.kind = .dollar)
    (content : Derives r (.sequence .math .dollar d body)) (closed : body.isOpen = false)
    (half : stop = if body.last.kind = .dollars then body.before.advance 1 else body.cursor)
    (ih : (Judgement.sequence .math .dollar d body).Walks r) :
    (Judgement.item mode c (.branch ⟨c.pos, stop.pos⟩ {} (.inlineMath [Byte.dollar] [Byte.dollar]) [] body.nodes)
      stop).Walks r := by
  intro k _
  cases k with
  | none =>
    have hopening := (Cursor.token_reads token).1
    have hclosing := content.half_reads closed
    rw [kind] at hopening
    rw [← half] at hclosing
    exact ((walk_dollars hopening (by simp [Token.Kind.raw])).trans ih.1).trans (walk_dollars hclosing (by simp))
  | some k =>
    have hitem : Derives r (.item mode c _ stop) := .dollar token kind content closed half
    exact walk_unit token (by rw [kind]; rfl) hitem

theorem walks_emptyDollars (token : c.token = .ok (t, d)) (kind : t.kind = .dollars)
    (content : Derives r (.sequence .math .dollars d body)) (unclosed : body.isOpen = true) :
    (Judgement.item mode c (.branch ⟨c.pos, d.pos⟩ {} (.inlineMath [Byte.dollar] [Byte.dollar]) [] []) d).Walks r := by
  intro k _
  cases k with
  | none =>
    have hopening := (Cursor.token_reads token).1
    rw [kind] at hopening
    exact walk_dollars hopening (by simp [Token.Kind.raw])
  | some k =>
    have hitem : Derives r (.item mode c _ d) := .emptyDollars token kind content unclosed
    exact walk_unit token (by rw [kind]; rfl) hitem

theorem walks_optional {kinds : List ArgKind} {args : List Node} (sign : c.peek? = some Byte.openBracket)
    (content : Derives r (.sequence mode (.bracket 0) (c.advance 1) body)) (closed : body.isOpen = false)
    (ihBody : (Judgement.sequence mode (.bracket 0) (c.advance 1) body).Walks r)
    (ih : (Judgement.arguments mode kinds body.cursor args d).Walks r) (arg : Node) :
    (Judgement.arguments mode (.optional :: kinds) c (arg :: args) d).Walks r := by
  intro k
  obtain ⟨s, hs⟩ := List.head?_eq_some_iff.1 sign
  have hends : body.last.kind = .closeBracket := content.ends closed
  have hraw : body.last.kind.raw = [Byte.closeBracket] := by rw [hends]; rfl
  have hopening {k' : Option Nat} (pass : passBracket Byte.openBracket k = some k') :
      Stride r (k, c) (k', c.advance 1) :=
    .bracket (by rw [hs]; rfl) sign pass
  refine .trans ?_ (ih k)
  cases k with
  | none => exact .head (hopening rfl) (ihBody.1.trans (walk_bracket content.stops hraw (.inr rfl) rfl))
  | some k =>
    exact .head (hopening rfl) ((ihBody.2 0 (k + 1) rfl closed).trans (walk_bracket content.stops hraw (.inr rfl) rfl))

theorem walks_braced {kinds : List ArgKind} {args : List Node} (sign : c.skipSpace.2.peek? = some Byte.openBrace)
    (content : Derives r (.sequence mode .brace (c.skipSpace.2.advance 1) body)) (closed : body.isOpen = false)
    (ih : (Judgement.arguments mode kinds body.cursor args d).Walks r) (arg : Node) :
    (Judgement.arguments mode (.mandatory :: kinds) c (arg :: args) d).Walks r := by
  intro k
  obtain ⟨t, token, kind⟩ := Cursor.token_of_single sign (k := .openBrace) rfl
  refine (walk_skipSpace c).trans (.trans ?_ (ih k))
  exact walk_unit token (by rw [kind]; rfl) (.group token kind content closed)

/-- **What is read is passed.** -/
theorem Derives.walks {j : Judgement} (h : Derives r j) : j.Walks r := by
  induction h with
  | stop token closed => exact walks_stop closed
  | next token pass more head rest ihHead ihRest => exact walks_next token pass head ihHead ihRest
  | leaf token plain => exact fun k hbracket => walk_leaf token plain hbracket
  | script token kind sign taken ih =>
    intro k _
    have hreads := (Cursor.token_reads token).1
    rw [kind] at hreads
    refine .head (.byte ?_) (hreads.place ▸ ih k)
    rw [gait_of_token _ token, kind]
    rfl
  | group token kind content closed ih =>
    exact fun k _ => walk_unit token (by rw [kind]; rfl) (.group token kind content closed)
  | formula token kind content closed ih => exact walks_formula token kind content closed ih
  | dollar token kind content closed half ih => exact walks_dollar token kind content closed half ih
  | emptyDollars token kind content unclosed => exact walks_emptyDollars token kind content unclosed
  | environment token kind opening nodes taken content closed closing =>
    exact fun k _ => walk_unit token (by rw [kind]; exact gaitOf_delimiter (by decide))
      (.environment token kind opening nodes taken content closed closing)
  | verbatim token kind opening raw taken content =>
    exact fun k _ => walk_unit token (by rw [kind]; exact gaitOf_delimiter (by decide))
      (.verbatim token kind opening raw taken content)
  | @verb mode c _ _ _ _ _ _ _ stop token kind known free starred star_eq content =>
    have hitem : Derives r (.item mode c _ stop) := .verb token kind known free starred star_eq content
    exact fun k _ => walk_unit token (by rw [kind]; simp [gaitOf, known]) hitem
  | command token kind known free taken ih =>
    exact fun k _ => (walk_token token (by rw [kind]; exact gaitOf_command known free)).trans (ih k)
  | done => exact fun k => .refl
  | absent missing others ih => exact ih
  | star sign others ih =>
    exact fun k => .trans (walk_idle (Cursor.peek_reads sign) (by simp; rfl)) (ih k)
  | optional sign content closed others ihBody ih => exact walks_optional sign content closed ihBody ih _
  | braced sign content closed others ihBody ih => exact walks_braced sign content closed ih _
  | bareCommand token kind known free others ih =>
    exact fun k => (walk_skipSpace _).trans
      ((walk_token token (by rw [kind]; exact gaitOf_command known free)).trans (ih k))
  | bareCharacter sign inert content others ih =>
    exact fun k => (walk_skipSpace _).trans ((walk_character sign inert content).trans (ih k))

/-! ## there is one way to go on -/

/-- No way leads on. -/
def Halts (r : Registry) (p : Option Nat × Cursor) : Prop :=
  ∀ q, ¬Stride r p q

theorem Halts.eq_of_walk (hp : Halts r p) (h : Walk r p q) : p = q := by
  rcases h.cases_head with heq | ⟨x, hx, -⟩
  · exact heq
  · exact absurd hx (hp x)

theorem halts_of_gait (h : gait r k.isSome c.rest = .halt) : Halts r (k, c) := by
  intro q hstride
  cases hstride with
  | byte pace | bracket pace | token pace | unit pace => cases h.symm.trans pace

/-- What closes a formula or an environment begins no node. -/
theorem halts_of_closing {name : Bytes} (token : c.token = .ok (t, d)) (kind : t.kind = .command name)
    (h : name = bytes "end" ∨ name = bytes ")" ∨ name = bytes "]") : Halts r (k, c) := by
  have hgait : gait r k.isSome c.rest = .unit := by
    rw [gait_of_token _ token, kind]
    exact gaitOf_delimiter (by rcases h with rfl | rfl | rfl <;> decide)
  intro q hstride
  cases hstride with
  | byte pace | bracket pace | token pace => cases hgait.symm.trans pace
  | unit pace hitem =>
    have hrun := hitem.found _ (Nat.le_refl _) token
    simp only [item, kind] at hrun
    rcases h with rfl | rfl | rfl
    · obtain ⟨_, -, hthrow⟩ := bind_eq_ok hrun
      cases hthrow
    · cases hrun
    · cases hrun

/-- What closes the sequence closes it for all readings. -/
def Closer.IsHard : Closer → Prop
  | .brace | .environment => True
  | .command name => name = bytes ")" ∨ name = bytes "]"
  | _ => False

theorem Derives.halts (h : Derives r (.sequence mode closer c body)) (closed : body.isOpen = false)
    (hard : closer.IsHard) : Halts r (k, body.before) := by
  have hends : closer.Ends body.last.kind := h.ends closed
  cases closer with
  | brace =>
    refine halts_of_gait ?_
    rw [gait_of_token _ h.stops, hends]
    rfl
  | environment => exact halts_of_closing h.stops hends (.inl rfl)
  | command name => exact halts_of_closing h.stops hends (.inr hard)
  | _ => cases hard

/-- The bracket that closes none halts. -/
theorem Derives.halts_bracket (h : Derives r (.sequence mode (.bracket 0) c body)) (closed : body.isOpen = false) :
    Halts r (some 0, body.before) := by
  have hends : body.last.kind = .closeBracket := h.ends closed
  have hgait : gait r true body.before.rest = .bracket := by
    rw [gait_of_token _ h.stops, hends]
    rfl
  have hpeek : body.before.peek? = some Byte.closeBracket := by
    rw [Cursor.peek?, (Cursor.token_reads h.stops).1.text, hends]
    rfl
  intro q hstride
  cases hstride with
  | byte pace | token pace | unit pace => cases hgait.symm.trans pace
  | bracket pace sign pass =>
    cases hpeek.symm.trans sign
    cases pass

/-- There is one way to go on where less than `size` bytes are left. -/
def UniqueBelow (r : Registry) (size : Nat) : Prop :=
  ∀ {p q q'}, p.2.rest.length < size → Stride r p q → Stride r p q' → q = q'

variable {size : Nat}

/-- A walk that can not go on ends at one place. -/
theorem UniqueBelow.eq_of_halts (huniq : UniqueBelow r size) (hp : p.2.rest.length < size) (h : Walk r p q)
    (hq : Halts r q) (h' : Walk r p q') (hq' : Halts r q') : q = q' := by
  induction h using Relation.ReflTransGen.head_induction_on with
  | refl => exact hq.eq_of_walk h'
  | head hstride _ ih =>
    rcases h'.cases_head with rfl | ⟨x, hx, hrest⟩
    · exact absurd hstride (hq' _)
    · cases huniq hp hstride hx
      exact ih (hstride.length_lt.trans hp) hrest

/-- A unit that begins with a command is read in the same way in all modes, unless it is an environment. -/
theorem control_mode {read : Reader} {span : Span} {name : Bytes} (hbegin : name ≠ bytes "begin")
    (h : (r.isVerb name || isDelimiter name) = true) :
    control r read mode span name c = control r read mode' span name c := by
  rw [control, control, if_neg hbegin, if_neg hbegin]
  cases hverb : r.isVerb name with
  | true => simp only [if_true]
  | false =>
    rw [hverb, Bool.false_or] at h
    simp only [isDelimiter, List.contains_eq_mem, List.mem_cons, List.not_mem_nil, or_false, decide_eq_true_eq] at h
    rcases h with h | rfl | rfl | rfl | rfl | rfl
    · exact absurd h hbegin
    all_goals rfl

theorem cursor_of_before (h : Derives r (.sequence mode closer c body))
    (h' : Derives r (.sequence mode' closer c body')) (hbefore : body.before = body'.before) :
    body.cursor = body'.cursor := by
  have htoken : body.before.token = .ok (body.last, body.cursor) := h.stops
  have htoken' : body'.before.token = .ok (body'.last, body'.cursor) := h'.stops
  rw [hbefore, htoken'] at htoken
  exact (Prod.mk.inj (Except.ok.inj htoken)).2.symm

namespace UniqueBelow

/-- Where a sequence ends that is closed for all readings does not depend on the mode. -/
theorem sequence (huniq : UniqueBelow r size) (hc : c.rest.length < size) (hard : closer.IsHard)
    (h : Derives r (.sequence mode closer c body)) (closed : body.isOpen = false)
    (h' : Derives r (.sequence mode' closer c body')) (closed' : body'.isOpen = false) :
    body.cursor = body'.cursor := by
  have hbefore := huniq.eq_of_halts (p := (none, c)) hc h.walks.1 (h.halts closed hard) h'.walks.1
    (h'.halts closed' hard)
  exact cursor_of_before h h' (Prod.mk.inj hbefore).2

/-- Nor does the place where an optional argument ends. -/
theorem bracket (huniq : UniqueBelow r size) (hc : c.rest.length < size)
    (h : Derives r (.sequence mode (.bracket 0) c body)) (closed : body.isOpen = false)
    (h' : Derives r (.sequence mode' (.bracket 0) c body')) (closed' : body'.isOpen = false) :
    body.cursor = body'.cursor := by
  have hbefore := huniq.eq_of_halts (p := (some 0, c)) hc (h.walks.2 0 0 rfl closed) (h.halts_bracket closed)
    (h'.walks.2 0 0 rfl closed') (h'.halts_bracket closed')
  exact cursor_of_before h h' (Prod.mk.inj hbefore).2

theorem group {start : Nat} {read : Reader} {nodes nodes' : List Node} (huniq : UniqueBelow r size)
    (hc : c.rest.length < size) (hread : read.Sound r) (h : Parse.group read mode start c = .ok (nodes, d))
    (h' : Parse.group read mode' start c = .ok (nodes', e)) : d = e := by
  obtain ⟨body, hbody, closed, -, rfl⟩ := group_derives hread h
  obtain ⟨body', hbody', closed', -, rfl⟩ := group_derives hread h'
  exact huniq.sequence hc (show Closer.brace.IsHard from trivial) hbody closed hbody' closed'

theorem argument {read : Reader} {kind : ArgKind} {arg arg' : Option Node} (huniq : UniqueBelow r size)
    (hc : c.rest.length < size) (hread : read.Sound r) (h : Parse.argument r read mode kind c = .ok (arg, d))
    (h' : Parse.argument r read mode' kind c = .ok (arg', e)) : d = e := by
  cases kind with
  | star =>
    cases h.symm.trans h'
    rfl
  | optional =>
    rw [Parse.argument, optionalArgument] at h h'
    by_cases sign : c.peek? = some Byte.openBracket
    · rw [if_neg (by simpa using sign)] at h h'
      obtain ⟨body, hbody, closed, h⟩ := closed_of_bind_eq_ok h
      obtain ⟨body', hbody', closed', h'⟩ := closed_of_bind_eq_ok h'
      cases h
      cases h'
      have hlength := (Cursor.peek_reads sign).length
      simp only [List.length_singleton] at hlength
      exact huniq.bracket (by omega) (hread.derives hbody) closed (hread.derives hbody') closed'
    · rw [if_pos sign] at h h'
      cases h
      cases h'
      rfl
  | mandatory =>
    rw [Parse.argument, mandatoryArgument] at h h'
    dsimp only at h h'
    cases hpeek : c.skipSpace.2.peek? with
    | none =>
      rw [hpeek] at h h'
      cases h.symm.trans h'
      rfl
    | some b =>
      rw [hpeek] at h h'
      dsimp only at h h'
      by_cases hopen : b = Byte.openBrace
      · rw [if_pos hopen] at h h'
        obtain ⟨⟨nodes, stop⟩, hgroup, h⟩ := bind_eq_ok h
        obtain ⟨⟨nodes', stop'⟩, hgroup', h'⟩ := bind_eq_ok h'
        cases h
        cases h'
        have hspace := c.skipSpace_reads.length
        have hlength := (Cursor.peek_reads hpeek).length
        simp only [List.length_singleton] at hlength
        exact huniq.group (by omega) hread hgroup hgroup'
      · -- the other arguments are a token or a character
        rw [if_neg hopen] at h h'
        cases h.symm.trans h'
        rfl

theorem arguments {read : Reader} {kinds : List ArgKind} {args args' : List Node} (huniq : UniqueBelow r size)
    (hc : c.rest.length < size) (hread : read.Sound r) (h : Parse.arguments r read mode kinds c = .ok (args, d))
    (h' : Parse.arguments r read mode' kinds c = .ok (args', e)) : d = e := by
  induction kinds generalizing c args args' with
  | nil =>
    cases h
    cases h'
    rfl
  | cons kind kinds ih =>
    obtain ⟨⟨arg, f⟩, harg, h⟩ := bind_eq_ok h
    obtain ⟨⟨arg', f'⟩, harg', h'⟩ := bind_eq_ok h'
    obtain ⟨⟨others, g⟩, hothers, h⟩ := bind_eq_ok h
    obtain ⟨⟨others', g'⟩, hothers', h'⟩ := bind_eq_ok h'
    cases h
    cases h'
    cases huniq.argument hc hread harg harg'
    have hlength := ((argument_derives hread harg .done).moves : c.Reads _ f).length
    exact ih (by omega) hothers hothers'

theorem environment {read : Reader} {start : Nat} (huniq : UniqueBelow r size) (hc : c.rest.length < size)
    (hread : read.Sound r) (h : Parse.environment r read mode start c = .ok (n, d))
    (h' : Parse.environment r read mode' start c = .ok (n', e)) : d = e := by
  obtain ⟨⟨name, f⟩, hname, h⟩ := bind_eq_ok h
  obtain ⟨⟨name', f'⟩, hname', h'⟩ := bind_eq_ok h'
  cases hname.symm.trans hname'
  obtain ⟨⟨args, g⟩, hargs, h⟩ := bind_eq_ok h
  obtain ⟨⟨args', g'⟩, hargs', h'⟩ := bind_eq_ok h'
  have hf := (Cursor.environmentName_reads hname).length
  cases huniq.arguments (by omega) hread hargs hargs'
  dsimp only at h h'
  split at h
  · next hverbatim =>
    rw [if_pos hverbatim] at h'
    split at h
    · cases h
    · next hbody =>
      rw [hbody] at h'
      cases h
      cases h'
      rfl
  · next hnodes =>
    rw [if_neg hnodes] at h'
    obtain ⟨body, hbody, closed, h⟩ := closed_of_bind_eq_ok h
    obtain ⟨body', hbody', closed', h'⟩ := closed_of_bind_eq_ok h'
    have hg := ((arguments_derives hread hargs).moves : f.Reads _ g).length
    have hcursor := huniq.sequence (by omega) (show Closer.environment.IsHard from trivial) (hread.derives hbody) closed
      (hread.derives hbody') closed'
    obtain ⟨⟨found, stop⟩, hfound, h⟩ := bind_eq_ok h
    obtain ⟨⟨found', stop'⟩, hfound', h'⟩ := bind_eq_ok h'
    rw [hcursor] at hfound
    cases hfound.symm.trans hfound'
    dsimp only at h h'
    split at h
    · cases h
    · next hsame =>
      rw [if_neg hsame] at h'
      cases h
      cases h'
      rfl

/-- Where a unit ends does not depend on the mode. -/
theorem item (huniq : UniqueBelow r c.rest.length) {counting : Bool} (pace : gait r counting c.rest = .unit)
    (h : Derives r (.item mode c n d)) (h' : Derives r (.item mode' c n' e)) : d = e := by
  obtain ⟨t, f, token⟩ : ∃ t f, c.token = .ok (t, f) := by
    cases h with
    | leaf token | script token | group token | formula token | dollar token | emptyDollars token | environment token
    | verbatim token | verb token | command token => exact ⟨_, _, token⟩
  have hrun := h.found _ (Nat.le_refl _) token
  have hrun' := h'.found _ (Nat.le_refl _) token
  have hread := content_sound r c.rest.length
  rw [gait_of_token _ token] at pace
  have hlength : f.rest.length < c.rest.length := Cursor.token_length token fun hend => by
    rw [hend] at pace
    cases pace
  cases hkind : t.kind with
  | openBrace =>
    simp only [Parse.item, hkind] at hrun hrun'
    obtain ⟨⟨nodes, stop⟩, hgroup, hrun⟩ := bind_eq_ok hrun
    obtain ⟨⟨nodes', stop'⟩, hgroup', hrun'⟩ := bind_eq_ok hrun'
    cases hrun
    cases hrun'
    exact huniq.group hlength hread hgroup hgroup'
  | dollar | dollars =>
    simp only [Parse.item, hkind] at hrun hrun'
    cases hrun.symm.trans hrun'
    rfl
  | command name =>
    simp only [Parse.item, hkind] at hrun hrun'
    by_cases hbegin : name = bytes "begin"
    · rw [control, if_pos hbegin] at hrun hrun'
      exact huniq.environment hlength hread hrun hrun'
    · -- no other unit that begins with a command looks at the mode
      rw [hkind, gaitOf] at pace
      have hunit : (r.isVerb name || isDelimiter name) = true := by
        by_contra hnot
        rw [if_neg hnot] at pace
        cases pace
      cases ((control_mode hbegin hunit).symm.trans hrun).symm.trans hrun'
      rfl
  | comment remark =>
    rw [hkind, gaitOf] at pace
    split at pace <;> cases pace
  | _ =>
    rw [hkind] at pace
    cases pace

end UniqueBelow

/-- **There is one way to go on.** -/
theorem stride_unique (r : Registry) : Relator.RightUnique (Stride r) := by
  have hall (size : Nat) : UniqueBelow r size := by
    induction size with
    | zero => exact fun hp => absurd hp (Nat.not_lt_zero _)
    | succ size ih =>
      intro p q q' hp h h'
      cases h with
      | byte pace =>
        cases h' with
        | byte => rfl
        | bracket pace' | token pace' | unit pace' => cases pace.symm.trans pace'
      | bracket pace sign pass =>
        cases h' with
        | bracket _ sign' pass' =>
          cases sign.symm.trans sign'
          cases pass.symm.trans pass'
          rfl
        | byte pace' | token pace' | unit pace' => cases pace.symm.trans pace'
      | token pace token =>
        cases h' with
        | token _ token' =>
          cases token.symm.trans token'
          rfl
        | byte pace' | bracket pace' | unit pace' => cases pace.symm.trans pace'
      | unit pace item =>
        cases h' with
        | unit _ item' =>
          have huniq : UniqueBelow r _ := fun hp' => ih (Nat.lt_of_lt_of_le hp' (Nat.le_of_lt_succ hp))
          rw [huniq.item pace item item']
        | byte pace' | bracket pace' | token pace' => cases pace.symm.trans pace'
  exact fun p q q' h h' => hall _ (Nat.lt_succ_self _) h h'

end TexTidy.Parse
