import Mathlib.Data.List.Chain
import TexTidy.Proofs.Complete

/-!
# TexTidy.Proofs.Lexing

The tokens of a source, read one after the other. `Cursor.Lexes c ts d` says that the tokens `ts` are read from `c` on
and that `d` is the place behind them. What one token keeps is carried along such a run:

* the spans are consecutive and no token is empty (`Lexes.tiles`);
* a token stands for the slice of the source that it spans, and a word goes on as far as it can (`Lexes.stands`);
* two words are never neighbours, and neither are two stretches of white space (`Lexes.apart`).

A run can be prolonged until nothing is left of the source but a backslash at most (`exists_lexes`), and
`Token.all` returns just that run (`tokensFrom_of_lexes`).
-/

namespace TexTidy

/-! ## tokens side by side -/

namespace Token

/-- A word. -/
def Kind.isText : Kind → Bool
  | .text _ => true
  | _ => false

/-- White space, a paragraph break or not. -/
def Kind.isSpacing : Kind → Bool
  | .space _ | .parbreak _ => true
  | _ => false

/-- Two tokens can be neighbours: they are not both words, and not both white space. -/
structure Apart (t u : Token) : Prop where
  words : ¬(t.kind.isText = true ∧ u.kind.isText = true)
  white : ¬(t.kind.isSpacing = true ∧ u.kind.isSpacing = true)

/-- The tokens cover the stretch from `lo` to `hi`, each a part of its own that is not empty. -/
def Tiles : Nat → List Token → Nat → Prop
  | lo, [], hi => lo = hi
  | lo, t :: ts, hi => t.span.start = lo ∧ lo < t.span.stop ∧ Tiles t.span.stop ts hi

/-- A byte that words are made of. -/
def isPlain (b : UInt8) : Bool :=
  !isActive b && !isBlank b

/-- The token stands for what it spans. If it is a word, it holds neither active bytes nor blanks, and one of these or
    the end of the source follows it. -/
structure Stands (src : Bytes) (t : Token) : Prop where
  slice : src.slice t.span = t.kind.raw
  plain : ∀ content, t.kind = .text content → ∀ b ∈ content, isActive b = false ∧ isBlank b = false
  maximal : t.kind.isText = true → ∀ b, src[t.span.stop]? = some b → isActive b = true ∨ isBlank b = true

theorem Kind.exists_of_isText {k : Kind} (h : k.isText = true) : ∃ content, k = .text content := by
  cases k with
  | text content => exact ⟨content, rfl⟩
  | _ => cases h

theorem Kind.exists_of_isSpacing {k : Kind} (h : k.isSpacing = true) :
    ∃ raw, k = .space raw ∨ k = .parbreak raw := by
  cases k with
  | space raw => exact ⟨raw, .inl rfl⟩
  | parbreak raw => exact ⟨raw, .inr rfl⟩
  | _ => cases h

/-- Only a backslash that is the last byte is no token. -/
theorem eq_of_scan?_eq_none {i : Bool} {s : Bytes} (h : scan? i s = none) : s = [Byte.backslash] := by
  cases s with
  | nil => cases h
  | cons c s =>
    rw [scan?] at h
    split at h
    · cases h
    split at h
    · cases h
    split at h
    · cases h
    split at h
    · next hc =>
      split at h
      · next hs => rw [hc, List.isEmpty_iff.1 hs]
      · cases h
    · split at h <;> cases h

end Token

namespace Cursor

variable {c d e : Cursor} {t u : Token} {ts : List Token} {src : Bytes}

/-! ## one token -/

/-- The only fault of a token is a backslash that is the last byte. -/
theorem rest_of_token_error {f : Fault} (h : c.token = .error f) :
    c.rest = [Byte.backslash] ∧ f = ⟨c.pos, .trailingEscape, c.pos + 1⟩ := by
  unfold token at h
  split at h
  · cases h
  · next hscan =>
    cases h
    exact ⟨Token.eq_of_scan?_eq_none hscan, rfl⟩

theorem token_of_backslash (h : c.rest = [Byte.backslash]) :
    c.token = .error ⟨c.pos, .trailingEscape, c.pos + 1⟩ := by
  rw [token, h]
  rfl

theorem token_of_nil (h : c.rest = []) : c.token = .ok (⟨.endOfInput, ⟨c.pos, c.pos⟩⟩, c) := by
  rw [token, h]
  rfl

/-- A word is the longest run of bytes that words are made of. -/
theorem text_of_token {content : Bytes} (token : c.token = .ok (t, d)) (kind : t.kind = .text content) :
    content = c.rest.takeWhile Token.isPlain ∧ c.rest = content ++ d.rest := by
  have hscan := scan?_of_token token
  have hrest := (token_reads token).1.text
  rw [kind] at hscan hrest
  refine ⟨?_, hrest⟩
  cases hc : c.rest with
  | nil =>
    rw [hc] at hscan
    cases hscan
  | cons b s =>
    rw [hc] at hscan
    obtain ⟨hactive, hblank⟩ := Token.isPlain_of_scan? hscan
    rw [Token.scan?_text hactive hblank] at hscan
    exact (Token.Kind.text.inj (Option.some.inj hscan)).symm

/-- What follows a word does not belong to it. -/
theorem stop_of_text {content : Bytes} (token : c.token = .ok (t, d)) (kind : t.kind = .text content) :
    d.rest.head?.any Token.isPlain = false := by
  obtain ⟨hrun, hrest⟩ := text_of_token token kind
  rw [hrun] at hrest
  exact Bytes.head?_of_takeWhile hrest

/-- **A token stands for what it spans.** -/
theorem stands_of_token (token : c.token = .ok (t, d)) (hc : c.At src) : t.Stands src := by
  obtain ⟨hreads, hspan⟩ := token_reads token
  refine ⟨?_, fun content kind b hb => ?_, fun kind b hb => ?_⟩
  · rw [hspan]
    exact slice_of_reads hc hreads
  · rw [(text_of_token token kind).1] at hb
    simpa [Token.isPlain] using List.all_eq_true.1 List.all_takeWhile b hb
  · obtain ⟨content, kind⟩ := Token.Kind.exists_of_isText kind
    have hnext := stop_of_text token kind
    rw [(hc.reads hreads).rest, List.head?_drop] at hnext
    rw [hspan] at hb
    rw [hb] at hnext
    simpa [Token.isPlain, Classical.or_iff_not_imp_left] using hnext

/-- **Neighbours are apart:** a word takes all bytes of its class that follow, and so does white space. -/
theorem apart_of_tokens (token : c.token = .ok (t, d)) (next : d.token = .ok (u, e)) : t.Apart u := by
  have hnext := scan?_of_token next
  refine ⟨fun ⟨ht, hu⟩ => ?_, fun ⟨ht, hu⟩ => ?_⟩
  · obtain ⟨content, ht⟩ := Token.Kind.exists_of_isText ht
    obtain ⟨content', hu⟩ := Token.Kind.exists_of_isText hu
    have hstop := stop_of_text token ht
    rw [hu] at hnext
    cases hd : d.rest with
    | nil =>
      rw [hd] at hnext
      cases hnext
    | cons b s =>
      rw [hd] at hnext hstop
      obtain ⟨hactive, hblank⟩ := Token.isPlain_of_scan? hnext
      simp [Token.isPlain, hactive, hblank] at hstop
  · obtain ⟨raw, ht⟩ := Token.Kind.exists_of_isSpacing ht
    obtain ⟨raw', hu⟩ := Token.Kind.exists_of_isSpacing hu
    have hstop := solid_of_white token ht
    rw [(Token.white_of_scan? hnext hu).2.1] at hstop
    cases hstop

/-! ## runs of tokens -/

/-- The tokens are read from `c` on, none of them the end of input, and `d` is the place behind them. -/
inductive Lexes : Cursor → List Token → Cursor → Prop
  | nil (c : Cursor) : Lexes c [] c
  | cons {c d e : Cursor} {t : Token} {ts : List Token} (token : c.token = .ok (t, d))
      (more : t.kind ≠ .endOfInput) (rest : Lexes d ts e) : Lexes c (t :: ts) e

namespace Lexes

theorem at_of_at (h : c.Lexes ts d) (hc : c.At src) : d.At src := by
  induction h with
  | nil c => exact hc
  | cons token more rest ih => exact ih (hc.reads (token_reads token).1)

/-- The tokens of a run cover the stretch it reads. -/
theorem tiles (h : c.Lexes ts d) : Token.Tiles c.pos ts d.pos := by
  induction h with
  | nil c => rfl
  | cons token more rest ih =>
    have hlt := lt_of_token token more
    obtain ⟨-, hspan⟩ := token_reads token
    rw [Token.Tiles, hspan]
    exact ⟨rfl, hlt, ih⟩

/-- The tokens of a run stand for what they span. -/
theorem stands (h : c.Lexes ts d) (hc : c.At src) : ∀ t ∈ ts, t.Stands src := by
  induction h with
  | nil c => simp
  | cons token more rest ih =>
    rintro u (_ | ⟨_, hu⟩)
    · exact stands_of_token token hc
    · exact ih (hc.reads (token_reads token).1) u hu

/-- Neighbours in a run are apart. -/
theorem apart (h : c.Lexes ts d) : ts.IsChain Token.Apart := by
  induction h with
  | nil c => exact .nil
  | @cons c d e t ts token more rest ih =>
    cases rest with
    | nil => exact .singleton t
    | cons next _ _ => exact .cons_cons (apart_of_tokens token next) ih

/-- Each token of a run takes at least one byte. -/
theorem length_le (h : c.Lexes ts d) : ts.length + d.rest.length ≤ c.rest.length := by
  induction h with
  | nil c => simp
  | cons token more rest ih =>
    have := token_length token more
    rw [List.length_cons]
    omega

end Lexes

/-- **Reading goes on up to the end of the source,** or up to a backslash that is its last byte. -/
theorem exists_lexes (c : Cursor) : ∃ ts d, c.Lexes ts d ∧ (d.rest = [] ∨ d.rest = [Byte.backslash]) := by
  induction hn : c.rest.length using Nat.strongRecOn generalizing c with
  | ind n ih =>
    cases htoken : c.token with
    | error f => exact ⟨[], c, .nil c, .inr (rest_of_token_error htoken).1⟩
    | ok found =>
      obtain ⟨t, d⟩ := found
      by_cases hend : t.kind = .endOfInput
      · exact ⟨[], c, .nil c, .inl (rest_of_endOfInput htoken hend)⟩
      · obtain ⟨ts, e, hlexes, hstop⟩ := ih d.rest.length (hn ▸ token_length htoken hend) d rfl
        exact ⟨t :: ts, e, .cons htoken hend hlexes, hstop⟩

/-- The tokens from a place on are those of a run from there and those behind it. -/
theorem tokensFrom_of_lexes (h : c.Lexes ts d) (n : Nat) :
    tokensFrom (ts.length + n) c = (ts ++ (tokensFrom n d).1, (tokensFrom n d).2) := by
  induction h with
  | nil c => simp
  | @cons c d e t ts token more rest ih =>
    rw [List.length_cons, Nat.add_right_comm, tokensFrom, token]
    simp [more, ih]

end Cursor

namespace Token

open Cursor (ofOffset Lexes)

/-- What is returned for a run that reads a source up to a place. -/
theorem all_of_lexes {src : Bytes} {ts : List Token} {d : Cursor} (h : (ofOffset src 0).Lexes ts d) :
    ∃ n, all src = (ts ++ (Cursor.tokensFrom (n + 1) d).1, (Cursor.tokensFrom (n + 1) d).2) := by
  have hlength := h.length_le
  have hsrc : (ofOffset src 0).rest.length = src.length := by simp [ofOffset]
  obtain ⟨n, hn⟩ := Nat.exists_eq_add_of_le (show ts.length ≤ src.length by omega)
  refine ⟨n, ?_⟩
  rw [all, hn, Nat.add_assoc, Cursor.tokensFrom_of_lexes h]

/-- A run that reads the whole source is followed by the end of input. -/
theorem all_of_lexes_end {src : Bytes} {ts : List Token} (h : (ofOffset src 0).Lexes ts (ofOffset src src.length)) :
    all src = (ts ++ [⟨.endOfInput, ⟨src.length, src.length⟩⟩], none) := by
  obtain ⟨n, hall⟩ := all_of_lexes h
  have hrest : (ofOffset src src.length).rest = [] := List.drop_length
  rw [hall, Cursor.tokensFrom, Cursor.token_of_nil hrest]
  rfl

/-- A run that reads the source up to a last backslash is followed by the fault. -/
theorem all_of_lexes_backslash {src : Bytes} {ts : List Token}
    (h : (ofOffset src 0).Lexes ts (ofOffset src (src.length - 1))) (hlast : src.getLast? = some Byte.backslash) :
    all src = (ts, some ⟨src.length - 1, .trailingEscape, src.length - 1 + 1⟩) := by
  obtain ⟨n, hall⟩ := all_of_lexes h
  have hrest : (ofOffset src (src.length - 1)).rest = [Byte.backslash] := by
    obtain ⟨front, rfl⟩ := List.getLast?_eq_some_iff.1 hlast
    simp [ofOffset]
  rw [hall, Cursor.tokensFrom, Cursor.token_of_backslash hrest, List.append_nil]
  rfl

/-- **The tokens of a source partition it.** Reading token by token from its start goes on up to the end of the source
    or up to a backslash that is its last byte. The tokens cover what was read with consecutive spans that are not
    empty, each stands for the slice it spans, words are maximal, and neither two words nor two stretches of white
    space are neighbours. The only fault is that backslash, and it is one exactly if a token would start there. -/
theorem all_partitions (src : Bytes) :
    (∃ ts stop, (ofOffset src 0).Lexes ts (ofOffset src stop) ∧ Tiles 0 ts stop ∧ (∀ t ∈ ts, t.Stands src) ∧
      ts.IsChain Apart ∧
      (stop = src.length ∧ all src = (ts ++ [⟨.endOfInput, ⟨src.length, src.length⟩⟩], none) ∨
        stop + 1 = src.length ∧ ∃ f, all src = (ts, some f) ∧ f.offset = stop ∧
          f.cause.message = bytes "invalid trailing escape")) ∧
    ((all src).2.isSome = true ↔
      src.getLast? = some Byte.backslash ∧ ∃ ts, (ofOffset src 0).Lexes ts (ofOffset src (src.length - 1))) := by
  have hstart := Cursor.at_start src
  obtain ⟨ts, d, hlexes, hstop⟩ := Cursor.exists_lexes (ofOffset src 0)
  have hd := hlexes.at_of_at hstart
  have hbound := hd.bound
  have hlength : d.rest.length = src.length - d.pos := by rw [hd.rest, List.length_drop]
  have hrun : (ofOffset src 0).Lexes ts (ofOffset src d.pos) := hd.place ▸ hlexes
  have hparts : Tiles 0 ts d.pos ∧ (∀ t ∈ ts, t.Stands src) ∧ ts.IsChain Apart :=
    ⟨hlexes.tiles, hlexes.stands hstart, hlexes.apart⟩
  rcases hstop with hnil | hlast
  · -- Nothing is left: the run ends with the source, and no other run ends before a last backslash.
    have hend : d.pos = src.length := by
      rw [hnil, List.length_nil] at hlength
      omega
    rw [hend] at hrun hparts
    have hall := all_of_lexes_end hrun
    refine ⟨⟨ts, src.length, hrun, hparts.1, hparts.2.1, hparts.2.2, .inl ⟨rfl, hall⟩⟩, ?_⟩
    rw [hall]
    refine ⟨nofun, fun ⟨hback, us, hus⟩ => ?_⟩
    rw [all_of_lexes_backslash hus hback] at hall
    cases hall
  · have hend : d.pos + 1 = src.length := by
      rw [hlast, List.length_singleton] at hlength
      omega
    have hpos : d.pos = src.length - 1 := by omega
    have hback : src.getLast? = some Byte.backslash := by
      rw [← List.take_append_drop d.pos src, ← hd.rest, hlast, List.getLast?_concat]
    rw [hpos] at hrun hparts
    have hall := all_of_lexes_backslash hrun hback
    refine ⟨⟨ts, src.length - 1, hrun, hparts.1, hparts.2.1, hparts.2.2, .inr ⟨by omega, _, hall, rfl, rfl⟩⟩, ?_⟩
    rw [hall]
    exact ⟨fun _ => ⟨hback, ts, hrun⟩, fun _ => rfl⟩

end Token

end TexTidy
