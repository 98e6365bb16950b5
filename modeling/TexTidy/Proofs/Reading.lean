import TexTidy.Source.Token

/-!
# TexTidy.Proofs.Reading

Reading moves a cursor over exactly the bytes that were read. `Cursor.Reads s c d` says that the text
`s` stands at `c` and that `d` is the place right after it. The relation composes like the texts do, and
every reader of `TexTidy.Source.Token` is shown to obey it:

* `token_reads`: a token moves over the bytes it stands for, and its span says so;
* `environmentName_reads`, `verbatimBody_reads`, `delimited_reads`, `skipSpace_reads`,
  `character_reads`: the units that are no tokens.

`slice_of_reads` ties a movement to the source: what was read is the slice between the two offsets.
-/

namespace TexTidy

/-- The bytes of a source that lie in a span. -/
def Bytes.slice (src : Bytes) (s : Span) : Bytes :=
  (src.drop s.start).take (s.stop - s.start)

/-! ## cutting -/

/-- The parts of a cut, with the marker between them, are the text. -/
theorem Bytes.eq_of_cut {marker s a b : Bytes} (h : cut marker s = some (a, b)) :
    s = a ++ (marker ++ b) := by
  induction s generalizing a with
  | nil =>
    rw [cut] at h
    split at h
    · next hm =>
      cases h
      simpa using hm
    · cases h
  | cons c s ih =>
    rw [cut] at h
    split at h
    · next hm =>
      cases h
      obtain ⟨rest, hrest⟩ := List.isPrefixOf_iff_prefix.1 hm
      simp [← hrest]
    · obtain ⟨⟨before, after⟩, hcut, hpair⟩ := Option.map_eq_some_iff.1 h
      cases hpair
      simp [ih hcut]

namespace Cursor

/-- The text before a marker stands in front of that marker. -/
theorem eq_of_bodyBefore? {marker s body : Bytes} {escaped : Bool}
    (h : bodyBefore? marker escaped s = some body) : ∃ rest, s = body ++ (marker ++ rest) := by
  induction s generalizing escaped body with
  | nil => cases h
  | cons b s ih =>
    rw [bodyBefore?] at h
    split at h
    · next hm =>
      cases h
      obtain ⟨rest, hrest⟩ := List.isPrefixOf_iff_prefix.1 (Bool.and_eq_true_iff.1 hm).2
      exact ⟨rest, by simp [hrest]⟩
    · obtain ⟨tail, htail, rfl⟩ := Option.map_eq_some_iff.1 h
      obtain ⟨rest, rfl⟩ := ih htail
      exact ⟨rest, rfl⟩

/-! ## moving over a text -/

/-- The text `s` stands at `c`, and `d` is the place after it. -/
structure Reads (s : Bytes) (c d : Cursor) : Prop where
  text : c.rest = s ++ d.rest
  place : d = c.advance s.length

/-- Moving in two steps is moving once. -/
theorem advance_add (m n : Nat) (c : Cursor) : c.advance (m + n) = (c.advance m).advance n := by
  induction m generalizing c with
  | zero => simp [advance]
  | succ m ih => rw [Nat.add_right_comm, advance, ih, advance]

theorem Reads.refl (c : Cursor) : Reads [] c c :=
  ⟨rfl, rfl⟩

theorem Reads.trans {s t : Bytes} {c d e : Cursor} (h : Reads s c d) (h' : Reads t d e) :
    Reads (s ++ t) c e := by
  refine ⟨?_, ?_⟩
  · rw [h.text, h'.text, List.append_assoc]
  · rw [h'.place, h.place, List.length_append, advance_add]

/-- A text that is there can be moved over. -/
theorem reads_of_rest {s t : Bytes} {c : Cursor} (h : c.rest = s ++ t) :
    Reads s c (c.advance s.length) :=
  ⟨by simp [h], rfl⟩

/-- The same, when the text is known to be in front. -/
theorem reads_of_isPrefix {s : Bytes} {c : Cursor} (h : s <+: c.rest) :
    Reads s c (c.advance s.length) := by
  obtain ⟨t, ht⟩ := h
  exact reads_of_rest ht.symm

theorem Reads.pos {s : Bytes} {c d : Cursor} (h : Reads s c d) : d.pos = c.pos + s.length := by
  rw [h.place]
  exact pos_advance _ _ (by simp [h.text])

/-! ## places of a source -/

/-- The cursor is a place of the source. -/
structure At (src : Bytes) (c : Cursor) : Prop where
  place : c = ofOffset src c.pos
  bound : c.pos ≤ src.length

theorem at_start (src : Bytes) : At src (ofOffset src 0) :=
  ⟨rfl, Nat.zero_le _⟩

theorem At.rest {src : Bytes} {c : Cursor} (h : At src c) : c.rest = src.drop c.pos := by
  conv => lhs; rw [h.place]
  rfl

/-- Reading stays inside the source. -/
theorem At.reads {src s : Bytes} {c d : Cursor} (hc : At src c) (h : Reads s c d) : At src d := by
  have hlen : c.pos + s.length ≤ src.length := by
    have hrest : (src.drop c.pos).length = s.length + d.rest.length := by
      rw [← hc.rest, h.text, List.length_append]
    have := hc.bound
    simp only [List.length_drop] at hrest
    omega
  have hd : d = ofOffset src (c.pos + s.length) := by
    rw [h.place]
    conv => lhs; rw [hc.place]
    exact advance_ofOffset src c.pos s.length hlen
  refine ⟨?_, ?_⟩
  · rw [h.pos]; exact hd
  · rw [h.pos]; exact hlen

/-- What was read is the slice of the source between the two places. -/
theorem slice_of_reads {src s : Bytes} {c d : Cursor} (hc : At src c) (h : Reads s c d) :
    src.slice ⟨c.pos, d.pos⟩ = s := by
  rw [Bytes.slice, h.pos, Nat.add_sub_cancel_left, ← hc.rest, h.text]
  simp

/-! ## what the readers move over -/

/-- A token moves the cursor over the bytes it stands for. -/
theorem token_reads {c d : Cursor} {t : Token} (h : c.token = .ok (t, d)) :
    Reads t.kind.raw c d ∧ t.span = ⟨c.pos, d.pos⟩ := by
  unfold token at h
  split at h
  · next kind hk =>
    cases h
    have hreads : Reads kind.raw c (c.advance kind.raw.length) :=
      reads_of_isPrefix (Token.raw_scan?_isPrefix hk)
    exact ⟨hreads, by rw [hreads.pos]⟩
  · cases h

/-- The end of input is met only where nothing is left. -/
theorem rest_of_endOfInput {c d : Cursor} {t : Token} (h : c.token = .ok (t, d))
    (hkind : t.kind = .endOfInput) : c.rest = [] := by
  have hscan : Token.scan? c.inked c.rest = some .endOfInput := by
    unfold token at h
    split at h
    · next kind hk =>
      cases h
      rw [hk, ← hkind]
    · cases h
  cases hrest : c.rest with
  | nil => rfl
  | cons b s =>
    rw [hrest, Token.scan?] at hscan
    split at hscan
    · next k hk =>
      cases hscan
      exact absurd (Token.raw_single? hk) (by simp [Token.Kind.raw])
    · repeat' split at hscan
      all_goals simp [Token.scanDollar, Token.scanBlank] at hscan
      all_goals repeat' split at hscan
      all_goals cases hscan

/-- The next byte can be moved over. -/
theorem peek_reads {c : Cursor} {b : UInt8} (h : c.peek? = some b) : Reads [b] c (c.advance 1) := by
  obtain ⟨rest, hrest⟩ := List.head?_eq_some_iff.1 h
  exact reads_of_rest (t := rest) hrest

/-- The name of an environment is read with its braces. -/
theorem environmentName_reads {c d : Cursor} {name : Bytes}
    (h : c.environmentName = .ok (name, d)) :
    Reads (Byte.openBrace :: (name ++ [Byte.closeBrace])) c d := by
  unfold environmentName at h
  split at h
  · cases h
  · next hopen =>
    split at h
    · cases h
    · next found after hcut =>
      split at h
      · cases h
      · cases h
        obtain ⟨rest, hrest⟩ := List.head?_eq_some_iff.1 (Classical.not_not.1 hopen)
        rw [hrest, List.tail_cons] at hcut
        have htext : c.rest = (Byte.openBrace :: (name ++ [Byte.closeBrace])) ++ after := by
          rw [hrest, Bytes.eq_of_cut hcut]; simp
        simpa using reads_of_rest htext

/-- A verbatim body is read with the marker that closes it. -/
theorem verbatimBody_reads {c d : Cursor} {name body : Bytes}
    (h : c.verbatimBody name = some (body, d)) : Reads (body ++ endMarker name) c d := by
  obtain ⟨found, hfound, hpair⟩ := Option.map_eq_some_iff.1 h
  cases hpair
  obtain ⟨rest, hrest⟩ := eq_of_bodyBefore? hfound
  have htext : c.rest = (body ++ endMarker name) ++ rest := by simp [hrest]
  simpa using reads_of_rest htext

/-- Delimited text is read with both delimiters. -/
theorem delimited_reads {c d : Cursor} {marker content : Bytes}
    (h : c.delimited = .ok ((marker, content), d)) : Reads (marker ++ content ++ marker) c d := by
  unfold delimited at h
  split at h
  · cases h
  · dsimp only at h
    split at h
    · cases h
    · split at h
      · next found after hcut =>
        split at h
        · cases h
        · cases h
          have hsize : (c.rest.take (Utf8.first c.rest).2).length = (Utf8.first c.rest).2 := by
            simp [Utf8.first_le_length]
          have htext : c.rest = (c.rest.take (Utf8.first c.rest).2 ++ content ++
              c.rest.take (Utf8.first c.rest).2) ++ after := by
            conv => lhs; rw [← List.take_append_drop (Utf8.first c.rest).2 c.rest]
            rw [Bytes.eq_of_cut hcut]
            simp
          have hreads := reads_of_rest htext
          rw [List.length_append, List.length_append, hsize] at hreads
          exact hreads
      · cases h

/-- Skipped space is moved over. -/
theorem skipSpace_reads (c : Cursor) : Reads c.skipSpace.1 c c.skipSpace.2 := by
  unfold skipSpace
  dsimp only
  split
  · exact Reads.refl c
  · exact reads_of_isPrefix (List.takeWhile_prefix _)

/-- A character is moved over. -/
theorem character_reads (c : Cursor) : Reads c.character.1 c c.character.2 := by
  have hreads := reads_of_isPrefix (c := c) (List.take_prefix (Utf8.first c.rest).2 c.rest)
  rw [List.length_take, Nat.min_eq_left (Utf8.first_le_length _)] at hreads
  exact hreads

end Cursor

end TexTidy
