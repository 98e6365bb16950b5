import TexTidy.Proofs.Lexeme
import TexTidy.Proofs.Lexing

/-!
# TexTidy.Proofs.Trimming

Blanks at the end of a text can be stripped without a change to its tokens, as long as no comment is among them. Which
blank belongs to a command is told by the parity of the backslashes before it, counted from the end, while tokens pair
the backslashes from the left. Both agree because every token leaves an even number of backslashes behind it
(`tight_even_of_token`), so that the last run of backslashes always begins where a token does.

What stands before the last white space is therefore tight and stays (`Lexes.tight`), and its tokens are read again in
front of what is left of that white space (`Lexes.again`).
-/

namespace TexTidy

/-! ## stripping -/

namespace Text

variable {blank : UInt8 → Bool}

/-- What is stripped once is stripped. -/
theorem stripReversed_stripReversed (rev : Bytes) :
    stripReversed blank (stripReversed blank rev) = stripReversed blank rev := by
  have hbody : (rev.dropWhile blank).head?.any blank = false := Bytes.head?_dropWhile blank rev
  have htake : (rev.dropWhile blank).takeWhile blank = [] := Bytes.takeWhile_eq_nil hbody
  have hdrop : (rev.dropWhile blank).dropWhile blank = rev.dropWhile blank := by
    simpa [htake] using List.takeWhile_append_dropWhile (p := blank) (l := rev.dropWhile blank)
  cases hlast : (rev.takeWhile blank).getLast? with
  | none =>
    have hsame : stripReversed blank rev = rev := by simp only [stripReversed, hlast]
    rw [hsame, hsame]
  | some b =>
    have hb : blank b = true := List.all_eq_true.1 List.all_takeWhile b (List.mem_of_getLast? hlast)
    cases hescaped : endsEscaped (rev.dropWhile blank) with
    | true =>
      have hkept : stripReversed blank rev = b :: rev.dropWhile blank := by
        simp only [stripReversed, hlast, hescaped, if_true]
      rw [hkept, stripReversed, List.takeWhile_cons_of_pos hb, List.dropWhile_cons_of_pos hb, htake, hdrop]
      simp [hescaped]
    | false =>
      have hkept : stripReversed blank rev = rev.dropWhile blank := by
        simp [stripReversed, hlast, hescaped]
      rw [hkept, stripReversed, htake]
      rfl

/-- Spaces at the end of a text are stripped alike, whether tabs count as blanks or not. -/
theorem stripReversed_of_spaces {rev : Bytes} (h : ∀ b ∈ rev.takeWhile isPad, b = Byte.space) :
    stripReversed isPad rev = stripReversed (· == Byte.space) rev := by
  have hbody : (rev.dropWhile isPad).head?.any (· == Byte.space) = false := by
    have hhead := Bytes.head?_dropWhile isPad rev
    cases hfirst : (rev.dropWhile isPad).head? with
    | none => rfl
    | some b =>
      rw [hfirst] at hhead
      simp only [Option.any_some, isPad, Bool.or_eq_false_iff] at hhead ⊢
      exact hhead.1
  have hspaces : ∀ b ∈ rev.takeWhile isPad, (b == Byte.space) = true := fun b hb => by simp [h b hb]
  have hrev : rev.takeWhile isPad ++ rev.dropWhile isPad = rev := List.takeWhile_append_dropWhile
  have htake : rev.takeWhile (· == Byte.space) = rev.takeWhile isPad := by
    conv => lhs; rw [← hrev]
    rw [List.takeWhile_append_of_pos hspaces, Bytes.takeWhile_eq_nil hbody, List.append_nil]
  have hdrop : rev.dropWhile (· == Byte.space) = rev.dropWhile isPad := by
    have hsplit : rev.takeWhile (· == Byte.space) ++ rev.dropWhile (· == Byte.space) = rev :=
      List.takeWhile_append_dropWhile
    rw [htake] at hsplit
    exact List.append_cancel_left (hsplit.trans hrev.symm)
  rw [stripReversed, stripReversed, htake, hdrop]

end Text

open Text (Tight Even tight_append even_append stripEnd)

/-! ## tokens at the end of a text -/

namespace Token

/-- The text that tokens were read from. -/
def rawAll (ts : List Token) : Bytes :=
  ts.flatMap (·.kind.raw)

/-- No token is a comment. -/
def FreeOfComments (ts : List Token) : Prop :=
  ∀ t ∈ ts, ∀ comment, t.kind ≠ .comment comment

/-- The last token, if there is one, is no white space. -/
def EndsSolid (ts : List Token) : Prop :=
  ∀ t ∈ ts.getLast?, t.kind.isSpacing = false

variable {t : Token} {ts : List Token}

theorem rawAll_cons (t : Token) (ts : List Token) : rawAll (t :: ts) = t.kind.raw ++ rawAll ts :=
  List.flatMap_cons

theorem FreeOfComments.tail (h : FreeOfComments (t :: ts)) : FreeOfComments ts :=
  fun u hu => h u (List.mem_cons_of_mem _ hu)

theorem EndsSolid.tail (h : EndsSolid (t :: ts)) : EndsSolid ts := by
  intro u hu
  refine h u ?_
  rw [List.getLast?_cons]
  simp_all

/-- If the last token is white space, it can be split off. -/
theorem exists_of_not_endsSolid (h : ¬ EndsSolid ts) : ∃ front t, ts = front ++ [t] ∧ t.kind.isSpacing = true := by
  simp only [EndsSolid, Option.mem_def, not_forall, Bool.not_eq_false] at h
  obtain ⟨t, ht, hwhite⟩ := h
  obtain ⟨front, hfront⟩ := List.getLast?_eq_some_iff.1 ht
  exact ⟨front, t, hfront, hwhite⟩

section

variable {i j : Bool} {k : Kind} {raw x y : Bytes}

theorem Kind.raw_of_white (hk : k = .space raw ∨ k = .parbreak raw) : k.raw = raw := by
  rcases hk with rfl | rfl <;> rfl

theorem ink_of_white {s : Bytes} (h : scan? i s = some k) (hk : k = .space raw ∨ k = .parbreak raw) :
    Bytes.ink raw = [] := by
  refine Bytes.ink_eq_nil_iff.2 fun b hb => ?_
  rw [← (white_of_scan? h hk).1] at hb
  exact List.all_eq_true.1 List.all_takeWhile b hb

/-- White space is read again in front of anything that begins like what follows it. -/
theorem scan?_white (hk : k = .space raw ∨ k = .parbreak raw) (hhead : y.head? = x.head?)
    (h : scan? i (raw ++ x) = some k) : scan? j (raw ++ y) = some k := by
  obtain ⟨htake, hblank, -⟩ := white_of_scan? h hk
  have hw := ink_of_white h hk
  have hx : x.head?.any isBlank = false :=
    Bytes.head?_of_takeWhile (p := isBlank) (s := raw ++ x) (by rw [htake])
  have hne : raw ≠ [] := by
    rintro rfl
    rw [List.nil_append, hx] at hblank
    cases hblank
  have hy : y.head?.any isBlank = false := hhead ▸ hx
  rw [Cursor.scan?_blank hne hw, scanBlank, (Cursor.takeWhile_blank hw hx).1, (Cursor.takeWhile_blank hw hx).2] at h
  rw [Cursor.scan?_blank hne hw, scanBlank, (Cursor.takeWhile_blank hw hy).1, (Cursor.takeWhile_blank hw hy).2, hhead]
  split at h
  · -- White space in front of a comment is a part of the comment.
    rcases hk with rfl | rfl <;> cases h
  · next hcomment => rw [if_neg hcomment, h]

/-- White space is read again in front of anything that begins like what follows it, and other tokens also in front of
    blanks and at the end. -/
theorem scan?_of_head (more : k ≠ .endOfInput) (code : ∀ c, k ≠ .comment c) (hxy : Follows x y)
    (hhead : y.head? = x.head? ∨ k.isSpacing = false ∧ y.head?.all isBlank = true)
    (h : scan? i (k.raw ++ x) = some k) : scan? j (k.raw ++ y) = some k := by
  cases hlexeme : k.isLexeme with
  | true => exact scan?_append hlexeme hxy h
  | false =>
    cases k with
    | endOfInput => exact absurd rfl more
    | comment c => exact absurd rfl (code c)
    | space raw => exact scan?_white (.inl rfl) (hhead.resolve_right nofun) h
    | parbreak raw => exact scan?_white (.inr rfl) (hhead.resolve_right nofun) h
    | dollar =>
      have hx : scanDollar x = .dollar := Option.some.inj h
      have hy : y.head? ≠ some Byte.dollar := by
        rintro hy
        rcases hhead with hsame | ⟨-, hall⟩
        · simp [scanDollar, ← hsame, hy] at hx
        · rw [hy] at hall
          cases hall
      exact congrArg some (if_neg hy)
    | _ => cases hlexeme

end

/-- White space that is cut off keeps its kind. -/
inductive Kind.Shortens : Kind → Kind → Prop
  | space {raw kept : Bytes} (part : kept <+: raw) (nonempty : kept ≠ []) : Shortens (.space raw) (.space kept)
  | parbreak {raw kept : Bytes} (part : kept <+: raw) (nonempty : kept ≠ []) :
      Shortens (.parbreak raw) (.parbreak kept)

/-- The tokens are the same, except that white space at their end may be shorter or missing. -/
inductive Shortened : List Token → List Token → Prop
  | same (ts : List Token) : Shortened ts ts
  | missing (ts : List Token) {t : Token} (white : t.kind.isSpacing = true) : Shortened (ts ++ [t]) ts
  | shorter (ts : List Token) {t u : Token} (kind : t.kind.Shortens u.kind) (start : u.span.start = t.span.start) :
      Shortened (ts ++ [t]) (ts ++ [u])

end Token

namespace Cursor

open Token (FreeOfComments EndsSolid rawAll rawAll_cons)

variable {c d e : Cursor} {t : Token} {ts us : List Token} {src : Bytes}

/-- **A token leaves no backslash waiting,** and if it is no white space, no blank that could be stripped. -/
theorem tight_even_of_token (token : c.token = .ok (t, d)) (more : t.kind ≠ .endOfInput)
    (code : ∀ comment, t.kind ≠ .comment comment) {s : Bytes} (hs : Even s) :
    Even (s ++ t.kind.raw) ∧ (t.kind.isSpacing = false → Tight (s ++ t.kind.raw)) := by
  have solid {raw : Bytes} {b : UInt8} (hlast : raw.getLast? = some b) (hpad : isPad b = false)
      (hb : b ≠ Byte.backslash) : Even (s ++ raw) ∧ Tight (s ++ raw) :=
    ⟨even_append hlast hb, tight_append hlast hpad⟩
  have white (raw : Bytes) (hk : t.kind = .space raw ∨ t.kind = .parbreak raw) : Even (s ++ raw) := by
    have hne : raw ≠ [] := Token.Kind.raw_of_white hk ▸ raw_ne_nil_of_token token more
    obtain ⟨b, hb⟩ := Option.isSome_iff_exists.1 (List.getLast?_isSome.2 hne)
    refine even_append hb ?_
    rintro rfl
    have hink := Token.ink_of_white (scan?_of_token token) hk
    cases Bytes.ink_eq_nil_iff.1 hink _ (List.mem_of_getLast? hb)
  have hscan := scan?_of_token token
  rw [(token_reads token).1.text] at hscan
  cases hk : t.kind with
  | endOfInput => exact absurd hk more
  | comment comment => exact absurd hk (code comment)
  | space raw => exact ⟨white raw (.inl hk), nofun⟩
  | parbreak raw => exact ⟨white raw (.inr hk), nofun⟩
  | text content =>
    rw [hk] at hscan
    obtain ⟨b, w, rfl, -⟩ := Token.exists_cons_of_text hscan
    obtain ⟨a, hlast, hpad, hcode⟩ := (plain_of_scan? hscan).last
    exact (solid hlast hpad hcode).imp_right fun h _ => h
  | command name =>
    obtain ⟨htight, heven⟩ := (named_of_token token hk).tight_even fun _ => hs
    exact ⟨heven fun _ => hs, fun _ => htight⟩
  | symbol b =>
    rw [hk] at hscan
    have hb := Parse.BeginsText.of_single? (Token.single?_of_scan? hscan)
    exact (solid rfl (isPad_eq_false hb.blank) hb.backslash).imp_right fun h _ => h
  | openBrace | closeBrace | openBracket | closeBracket | dollar | dollars =>
    exact (solid rfl rfl (by decide)).imp_right fun h _ => h

/-- A token is read again in front of what begins in the same way, and if it is no white space also in front of blanks
    and at the end. -/
theorem token_again (token : c.token = .ok (t, d)) (more : t.kind ≠ .endOfInput)
    (code : ∀ comment, t.kind ≠ .comment comment) {c' : Cursor} {y : Bytes} (hxy : Follows d.rest y)
    (hhead : y.head? = d.rest.head? ∨ t.kind.isSpacing = false ∧ y.head?.all isBlank = true)
    (hpos : c'.pos = c.pos) (hrest : c'.rest = t.kind.raw ++ y) :
    ∃ d', c'.token = .ok (t, d') ∧ d'.rest = y ∧ d'.pos = d.pos := by
  obtain ⟨hreads, hspan⟩ := token_reads token
  have hscan := scan?_of_token token
  rw [hreads.text] at hscan
  have hagain : Token.scan? c'.inked c'.rest = some t.kind := by
    rw [hrest]
    exact Token.scan?_of_head more code hxy hhead hscan
  obtain ⟨t', d', htoken, hkind, hd⟩ := token_of_scan? hrest hagain
  obtain ⟨hreads', hspan'⟩ := token_reads htoken
  have hpos' : d'.pos = d.pos := by rw [hreads'.pos, hreads.pos, hpos, hkind]
  have ht : t' = t := by
    change (⟨t'.kind, t'.span⟩ : Token) = ⟨t.kind, t.span⟩
    rw [hkind, hspan', hspan, hpos, hpos']
  exact ⟨d', ht ▸ htoken, hd, hpos'⟩

namespace Lexes

theorem rest_eq (h : c.Lexes ts d) : c.rest = rawAll ts ++ d.rest := by
  induction h with
  | nil c => rfl
  | cons token more rest ih => rw [(token_reads token).1.text, ih, rawAll_cons, List.append_assoc]

theorem trans (h : c.Lexes ts d) (h' : d.Lexes us e) : c.Lexes (ts ++ us) e := by
  induction h with
  | nil c => exact h'
  | cons token more rest ih => exact .cons token more (ih h')

theorem exists_of_append (h : c.Lexes (ts ++ us) e) : ∃ d, c.Lexes ts d ∧ d.Lexes us e := by
  induction ts generalizing c with
  | nil => exact ⟨c, .nil c, h⟩
  | cons t ts ih =>
    cases h with
    | cons token more rest =>
      obtain ⟨d, hfront, hback⟩ := ih rest
      exact ⟨d, .cons token more hfront, hback⟩

/-- **Nothing can be stripped from the end of a run** that ends in no white space. -/
theorem tight (h : c.Lexes ts d) (code : FreeOfComments ts) (hlast : EndsSolid ts) {s : Bytes} (hs : Even s)
    (hstart : ts = [] → Tight s) : Tight (s ++ rawAll ts) := by
  induction h generalizing s with
  | nil c => simpa [rawAll] using hstart rfl
  | @cons c d e t ts token more rest ih =>
    obtain ⟨heven, htight⟩ := tight_even_of_token token more (code t List.mem_cons_self) hs
    rw [rawAll_cons, ← List.append_assoc]
    refine ih code.tail hlast.tail heven ?_
    rintro rfl
    exact htight (hlast t rfl)

/-- What is read behind a token begins with what the next token stands for. -/
theorem head?_append (h : c.Lexes ts d) (hts : ts ≠ []) (y : Bytes) : (rawAll ts ++ y).head? = c.rest.head? := by
  cases h with
  | nil c => exact absurd rfl hts
  | @cons c d e t ts token more rest =>
    obtain ⟨b, s, hraw⟩ := List.exists_cons_of_ne_nil (raw_ne_nil_of_token token more)
    rw [(token_reads token).1.text, rawAll_cons, hraw]
    rfl

/-- **The tokens of a run are read again** in front of blanks and at the end, if the last of them is no white space. -/
theorem again (h : c.Lexes ts d) (code : FreeOfComments ts) (hlast : EndsSolid ts) {c' : Cursor} {y : Bytes}
    (hy : y.head?.all isBlank = true) (hpos : c'.pos = c.pos) (hrest : c'.rest = rawAll ts ++ y) :
    ∃ d', c'.Lexes ts d' ∧ d'.rest = y ∧ d'.pos = d.pos := by
  induction h generalizing c' with
  | nil c => exact ⟨c', .nil c', hrest, hpos⟩
  | @cons c d e t ts token more rest ih =>
    have hstop : y.head?.all isStop = true := by
      cases hfirst : y.head? with
      | none => rfl
      | some b =>
        rw [hfirst] at hy
        have hb : isBlank b = true := hy
        have hne : b ≠ Byte.openBracket := by
          rintro rfl
          cases hb
        simp [isStop, hb, hne]
    have hfollows : Follows d.rest (rawAll ts ++ y) := by
      rw [rest.rest_eq]
      exact (Follows.of_isStop _ hstop).append _
    have hhead : (rawAll ts ++ y).head? = d.rest.head? ∨
        t.kind.isSpacing = false ∧ (rawAll ts ++ y).head?.all isBlank = true := by
      by_cases hts : ts = []
      · subst hts
        exact .inr ⟨hlast t rfl, hy⟩
      · exact .inl (rest.head?_append hts y)
    rw [rawAll_cons, List.append_assoc] at hrest
    obtain ⟨d', htoken, hd, hdpos⟩ := token_again token more (code t List.mem_cons_self) hfollows hhead hpos hrest
    obtain ⟨e', hlexes, he, hepos⟩ := ih code.tail hlast.tail hdpos hd
    exact ⟨e', .cons htoken more hlexes, he, hepos⟩

end Lexes

/-- A place with nothing left is the end of the source. -/
theorem At.eq_end (h : d.At src) (hrest : d.rest = []) : d = ofOffset src src.length := by
  have hlength := congrArg List.length hrest
  rw [h.rest, List.length_drop, List.length_nil] at hlength
  have hbound := h.bound
  have hpos : d.pos = src.length := by omega
  rw [← hpos]
  exact h.place

/-- White space that loses some of its bytes, but no newline, stays what it is. -/
theorem shortens_of_tokens {c' d' : Cursor} {t' : Token} {raw kept : Bytes} (token : c.token = .ok (t, d))
    (kind : t.kind = .space raw ∨ t.kind = .parbreak raw) (token' : c'.token = .ok (t', d'))
    (kind' : t'.kind = .space kept ∨ t'.kind = .parbreak kept) (part : kept <+: raw) (hne : kept ≠ [])
    (hcount : kept.count Byte.newline = raw.count Byte.newline) : t.kind.Shortens t'.kind := by
  have hscan := scan?_of_token token
  have hscan' := scan?_of_token token'
  have hbreak := (Token.white_of_scan? hscan kind).2.2
  have hbreak' := (Token.white_of_scan? hscan' kind').2.2
  rcases kind with hk | hk <;> rcases kind' with hk' | hk' <;> rw [hk] at hscan hbreak ⊢ <;>
    rw [hk'] at hscan' hbreak' ⊢
  · exact .space part hne
  · have hlines := Token.count_of_parbreak hscan'
    cases hbreak (hcount ▸ hlines)
  · have hlines := Token.count_of_parbreak hscan
    cases hbreak' (hcount.symm ▸ hlines)
  · exact .parbreak part hne

/-- **A run up to the end of a source stays** when blanks are stripped there, but for white space at its end. -/
theorem Lexes.exists_stripEnd (h : (ofOffset src 0).Lexes ts d) (hd : d.rest = []) (code : FreeOfComments ts) :
    ∃ us e, (ofOffset (stripEnd isPad src) 0).Lexes us e ∧ e.rest = [] ∧ Token.Shortened ts us := by
  have hsrc : src = rawAll ts := by simpa [ofOffset, hd] using h.rest_eq
  by_cases hlast : EndsSolid ts
  · have htight : Tight src := by
      rw [hsrc]
      exact h.tight code hlast (s := []) rfl fun _ => rfl
    rw [htight]
    exact ⟨ts, d, h, hd, .same ts⟩
  obtain ⟨front, t, rfl, hwhite⟩ := Token.exists_of_not_endsSolid hlast
  have hsolid : EndsSolid front := by
    intro u hu
    have happart := (List.isChain_append.1 h.apart).2.2 u hu t rfl
    exact Bool.eq_false_iff.2 fun hspacing => happart.white ⟨hspacing, hwhite⟩
  have hfree : FreeOfComments front := fun u hu => code u (List.mem_append_left _ hu)
  obtain ⟨e, hfront, hback⟩ := h.exists_of_append
  cases hback with
  | cons token more rest =>
  cases rest
  obtain ⟨raw, kind⟩ := Token.Kind.exists_of_isSpacing hwhite
  have hraw : t.kind.raw = raw := Token.Kind.raw_of_white kind
  -- What stands before the white space is tight, so that some of the white space is stripped and nothing else.
  have htight : Tight (rawAll front) := hfront.tight hfree hsolid (s := []) rfl fun _ => rfl
  obtain ⟨kept, pads, hsplit, hpads, hstrip⟩ := Text.stripEnd_append htight raw
  have htext : src = rawAll front ++ raw := by rw [hsrc, ← hraw]; simp [rawAll]
  rw [← htext] at hstrip
  have hblank := Token.ink_of_white (scan?_of_token token) kind
  have hkept : Bytes.ink kept = [] := Bytes.ink_eq_nil_iff.2 fun b hb =>
    Bytes.ink_eq_nil_iff.1 hblank b (by rw [hsplit]; exact List.mem_append_left _ hb)
  have hhead : kept.head?.all isBlank = true := by
    cases kept with
    | nil => rfl
    | cons b kept => exact Bytes.ink_eq_nil_iff.1 hkept b List.mem_cons_self
  have hstart : (ofOffset (stripEnd isPad src) 0).rest = rawAll front ++ kept := hstrip
  have hzero : (ofOffset (stripEnd isPad src) 0).pos = (ofOffset src 0).pos := rfl
  obtain ⟨e', hlexes, hrest, hpos⟩ := hfront.again hfree hsolid hhead hzero hstart
  by_cases hne : kept = []
  · exact ⟨front, e', hlexes, hrest.trans hne, .missing front hwhite⟩
  · obtain ⟨t', d', htoken, hkind, hd'⟩ := token_blank (z := []) hne hkept rfl (by simp) (by simpa using hrest)
    have hcount : kept.count Byte.newline = raw.count Byte.newline := by
      have hnone : pads.count Byte.newline = 0 := List.count_eq_zero.2 fun hmem => by cases hpads _ hmem
      rw [hsplit, List.count_append, hnone, Nat.add_zero]
    have hmore : t'.kind ≠ .endOfInput := by rcases hkind with hk | hk <;> simp [hk]
    refine ⟨front ++ [t'], d', hlexes.trans (.cons htoken hmore (.nil d')), hd', .shorter front ?_ ?_⟩
    · exact shortens_of_tokens token kind htoken hkind ⟨pads, hsplit.symm⟩ hne hcount
    · rw [(token_reads htoken).2, (token_reads token).2, hpos]

end Cursor

namespace Token

open Cursor (ofOffset Lexes)

/-- The end of a source. -/
def endOf (src : Bytes) : Token :=
  ⟨.endOfInput, ⟨src.length, src.length⟩⟩

theorem all_of_lexes_nil {src : Bytes} {ts : List Token} {d : Cursor} (h : (ofOffset src 0).Lexes ts d)
    (hd : d.rest = []) : all src = (ts ++ [endOf src], none) := by
  have hend := (h.at_of_at (Cursor.at_start src)).eq_end hd
  exact all_of_lexes_end (hend ▸ h)

/-- A source without a fault is read up to its end. -/
theorem exists_lexes_of_all {src : Bytes} (h : (all src).2 = none) :
    ∃ ts d, (ofOffset src 0).Lexes ts d ∧ d.rest = [] := by
  obtain ⟨ts, d, hlexes, hnil | hlast⟩ := Cursor.exists_lexes (ofOffset src 0)
  · exact ⟨ts, d, hlexes, hnil⟩
  · obtain ⟨n, hall⟩ := all_of_lexes hlexes
    rw [hall, Cursor.tokensFrom, Cursor.token_of_backslash hlast] at h
    cases h

/-- Only white space is missing. -/
theorem Shortened.mem {ts us : List Token} (h : Shortened ts us) {t : Token} (ht : t ∈ ts)
    (hsolid : t.kind.isSpacing = false) : t ∈ us := by
  cases h with
  | same => exact ht
  | missing us white =>
    refine (List.mem_append.1 ht).elim id fun hlast => ?_
    rw [← List.mem_singleton.1 hlast, hsolid] at white
    cases white
  | shorter ts kind start =>
    refine List.mem_append_left _ ((List.mem_append.1 ht).elim id fun hlast => ?_)
    rw [← List.mem_singleton.1 hlast] at kind
    cases hk : t.kind with
    | space | parbreak =>
      rw [hk] at hsolid
      cases hsolid
    | _ =>
      rw [hk] at kind
      cases kind

end Token

open Token (all endOf FreeOfComments Shortened)

/-- **Stripping is lexically safe.** A text that is read without a fault and without a comment has the same tokens when
    the blanks at its end are stripped, except that white space at the end may be shorter or missing: there is no fault
    after that either, and every other token is still there, a control space or control tab at the end included.
    Stripping twice is stripping once, and where only spaces stand at the end the lines of a layout and those of a table
    are stripped alike. -/
theorem Text.stripEnd_keeps_tokens (s : Bytes) :
    ((all s).2 = none → FreeOfComments (all s).1 →
      ∃ ts us, all s = (ts ++ [endOf s], none) ∧
        all (stripLine s) = (us ++ [endOf (stripLine s)], none) ∧ Shortened ts us ∧
        ∀ t ∈ ts, t.kind.isSpacing = false → t ∈ us) ∧
    stripLine (stripLine s) = stripLine s ∧
    ((∀ b ∈ s.reverse.takeWhile isPad, b = Byte.space) → stripPadding s = stripLine s) := by
  refine ⟨fun hfault hcode => ?_, ?_, fun hspaces => ?_⟩
  · obtain ⟨ts, d, hlexes, hd⟩ := Token.exists_lexes_of_all hfault
    have hall := Token.all_of_lexes_nil hlexes hd
    have hfree : FreeOfComments ts := fun t ht => hcode t (by rw [hall]; exact List.mem_append_left _ ht)
    obtain ⟨us, e, hagain, he, hshort⟩ := hlexes.exists_stripEnd hd hfree
    exact ⟨ts, us, hall, Token.all_of_lexes_nil hagain he, hshort, fun t ht => hshort.mem ht⟩
  · simp only [stripLine, stripEnd, List.reverse_reverse, Text.stripReversed_stripReversed]
  · simp only [stripPadding, stripLine, stripEnd, Text.stripReversed_of_spaces hspaces]

/-- Of three spaces behind three backslashes the first is a control space: it stays, and so does its backslash. -/
theorem Text.stripEnd_keeps_tokens_control :
    stripLine (bytes "a\\\\\\   ") = bytes "a\\\\\\ " ∧
      (∃ ts us, all (bytes "a\\\\\\   ") = (ts ++ [endOf (bytes "a\\\\\\   ")], none) ∧
        all (bytes "a\\\\\\ ") = (us ++ [endOf (bytes "a\\\\\\ ")], none) ∧ Shortened ts us ∧
        ∀ t ∈ ts, t.kind.isSpacing = false → t ∈ us) ∧
      stripPadding (bytes "a\\\\\\   ") = bytes "a\\\\\\ " := by
  have hstrip : stripLine (bytes "a\\\\\\   ") = bytes "a\\\\\\ " := by decide
  obtain ⟨htokens, -, hspaces⟩ := Text.stripEnd_keeps_tokens (bytes "a\\\\\\   ")
  rw [hstrip] at htokens hspaces
  have hfree : FreeOfComments (all (bytes "a\\\\\\   ")).1 := by
    have hall : (all (bytes "a\\\\\\   ")).1 = [⟨.text (bytes "a"), ⟨0, 1⟩⟩,
        ⟨.command (bytes "\\"), ⟨1, 3⟩⟩, ⟨.command (bytes " "), ⟨3, 5⟩⟩, ⟨.space (bytes "  "), ⟨5, 7⟩⟩,
        endOf (bytes "a\\\\\\   ")] := by
      decide +kernel
    intro t ht comment
    rw [hall] at ht
    simp only [List.mem_cons, List.not_mem_nil, or_false] at ht
    rcases ht with rfl | rfl | rfl | rfl | rfl <;> nofun
  have hblanks : (bytes "a\\\\\\   ").reverse.takeWhile isPad = List.replicate 3 Byte.space := by decide
  exact ⟨hstrip, htokens (by decide +kernel) hfree, hspaces fun b hb => List.eq_of_mem_replicate (hblanks ▸ hb)⟩

end TexTidy
