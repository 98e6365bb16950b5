import TexTidy.Proofs.Termination

/-!
# TexTidy.Proofs.ErrorPlace

Every error points into its source. A fault is raised at some place that reading has come to, so its offset lies in the
source, no offset is ever cut off at the end, and what the error is about stands there (`exists_place_of_document`).

The line and the column of an error are another way to write its offset. `lineStart?` finds the start of a line from
its number alone, by counting newlines from the front. The line of an offset starts behind the last newline before it
(`lineStart?_of_wholeLines`), and the column says how far the offset is from there, so the offset can be had back
(`offsetOf?`).
-/

namespace TexTidy

/-! ## lines -/

/-- The offset at which a line starts. Lines are counted from one, and a line starts behind each newline. -/
def lineStart? (line : Nat) : Bytes → Option Nat
  | [] => if line = 1 then some 0 else none
  | b :: s =>
    if line = 1 then some 0
    else (lineStart? (if b = Byte.newline then line - 1 else line) s).map (· + 1)

/-- The offset that a line and a column stand for. -/
def offsetOf? (src : Bytes) (line column : Nat) : Option Nat :=
  (lineStart? line src).map (· + (column - 1))

/-- The line and the column are those of the offset: the line starts at `start`, and only its own bytes stand between
    its start and the offset. -/
structure IsPosition (src : Bytes) (offset line column start : Nat) : Prop where
  newlines : (src.take offset).count Byte.newline + 1 = line
  starts : lineStart? line src = some start
  column_pos : 1 ≤ column
  distance : start + (column - 1) = offset
  unbroken : Byte.newline ∉ src.slice ⟨start, offset⟩

theorem lineStart?_one (src : Bytes) : lineStart? 1 src = some 0 := by
  cases src <;> rfl

/-- The text is made of whole lines: it ends with a newline if there is anything in it. -/
def WholeLines (s : Bytes) : Prop :=
  s = [] ∨ ∃ t, s = t ++ [Byte.newline]

/-- A line starts behind the lines before it. -/
theorem lineStart?_of_wholeLines {lines : Bytes} (h : WholeLines lines) (rest : Bytes) :
    lineStart? (lines.count Byte.newline + 1) (lines ++ rest) = some lines.length := by
  rcases h with rfl | ⟨t, rfl⟩
  · exact lineStart?_one rest
  · induction t with
    | nil => simp [lineStart?, lineStart?_one]
    | cons b t ih =>
      have hline : (if b = Byte.newline then (b :: (t ++ [Byte.newline])).count Byte.newline + 1 - 1
          else (b :: (t ++ [Byte.newline])).count Byte.newline + 1) = (t ++ [Byte.newline]).count Byte.newline + 1 := by
        split
        · next hb => simp [hb]
        · next hb => simp [List.count_cons_of_ne hb]
      have hlater : (b :: (t ++ [Byte.newline])).count Byte.newline + 1 ≠ 1 := by
        simp [List.count_cons]
      rw [List.cons_append, List.cons_append, lineStart?, if_neg hlater, hline, ih]
      rfl

/-- A text is made of whole lines and the beginning of another one. -/
theorem exists_wholeLines (s : Bytes) :
    ∃ lines line, s = lines ++ line ∧ WholeLines lines ∧ Byte.newline ∉ line := by
  by_cases h : Byte.newline ∈ s
  · obtain ⟨line, before, hs, hline⟩ := List.eq_append_cons_of_mem (List.mem_reverse.2 h)
    refine ⟨before.reverse ++ [Byte.newline], line.reverse, ?_, .inr ⟨_, rfl⟩, by simpa using hline⟩
    rw [← List.reverse_reverse s, hs]
    simp
  · exact ⟨[], s, rfl, .inl rfl, h⟩

/-- The line that a text ends in is what stands behind its last newline. -/
theorem takeWhile_reverse_of_wholeLines {lines line : Bytes} (h : WholeLines lines) (hline : Byte.newline ∉ line) :
    (lines ++ line).reverse.takeWhile (· != Byte.newline) = line.reverse := by
  have hall : ∀ b ∈ line.reverse, (b != Byte.newline) = true := by
    intro b hb
    exact bne_iff_ne.2 fun heq => hline (heq ▸ List.mem_reverse.1 hb)
  rw [List.reverse_append, List.takeWhile_append_of_pos hall]
  rcases h with rfl | ⟨t, rfl⟩ <;> simp

/-- **Line and column of an offset are its position.** -/
theorem isPosition_of_le {src : Bytes} {offset : Nat} (h : offset ≤ src.length) :
    ∃ start, IsPosition src offset (lineAt src offset) (columnAt src offset) start := by
  obtain ⟨lines, line, htake, hlines, hline⟩ := exists_wholeLines (src.take offset)
  have hsrc : src = lines ++ (line ++ src.drop offset) := by
    rw [← List.append_assoc, ← htake, List.take_append_drop]
  have hoffset : lines.length + line.length = offset := by
    rw [← List.length_append, ← htake, List.length_take, Nat.min_eq_left h]
  have hcount : (src.take offset).count Byte.newline = lines.count Byte.newline := by
    rw [htake, List.count_append, List.count_eq_zero_of_not_mem hline, Nat.add_zero]
  have hcolumn : columnAt src offset = line.length + 1 := by
    rw [columnAt, htake, takeWhile_reverse_of_wholeLines hlines hline, List.length_reverse]
  refine ⟨lines.length, rfl, ?_, ?_, ?_, ?_⟩
  · rw [lineAt, hcount, hsrc]
    exact lineStart?_of_wholeLines hlines _
  · rw [hcolumn]
    exact Nat.le_add_left _ _
  · rw [hcolumn]
    exact hoffset
  · have hslice : src.slice ⟨lines.length, offset⟩ = line := by
      rw [Bytes.slice, ← hoffset, Nat.add_sub_cancel_left]
      conv => lhs; rw [hsrc]
      simp
    rw [hslice]
    exact hline

/-! ## errors -/

namespace Parse

variable {r : Registry} {src : Bytes} {e : SyntaxError}

/-- **An error stands in its source**, where reading has come to. Its offset is that of the fault: none is cut off at
    the end. -/
theorem exists_place_of_document (h : document r src = .error e) :
    ∃ d : Cursor, d.At src ∧ e = ⟨d.pos, lineAt src d.pos, columnAt src d.pos, e.cause⟩ ∧ e.cause.Shows d.rest := by
  unfold document documentFrom at h
  split at h
  · cases h
  · next f hf =>
    cases h
    obtain ⟨s, d, hreads, hoffset, hshows⟩ := (sequence_concur r .text .document _).place f hf
    have hd := (Cursor.at_start src).reads hreads
    refine ⟨d, hd, ?_, hshows⟩
    rw [Fault.locate, hoffset, Nat.min_eq_left hd.bound]

/-- **Every error points into the source.** Its offset is one of the source, and what the error is about stands there.
    The line is the number of newlines before the offset and one more, that line starts as many bytes before the offset
    as the column says, and no other line starts in between. So the offset is what line and column stand for. -/
theorem error_points_into_source (h : document r src = .error e) :
    e.offset ≤ src.length ∧ e.cause.Shows (src.drop e.offset) ∧
    1 ≤ e.line ∧ (src.take e.offset).count Byte.newline = e.line - 1 ∧
    (∃ start, lineStart? e.line src = some start ∧ 1 ≤ e.column ∧ start + (e.column - 1) = e.offset ∧
      Byte.newline ∉ src.slice ⟨start, e.offset⟩) ∧
    offsetOf? src e.line e.column = some e.offset := by
  obtain ⟨d, hd, he, hshows⟩ := exists_place_of_document h
  obtain ⟨start, hposition⟩ := isPosition_of_le hd.bound
  rw [hd.rest] at hshows
  rw [he]
  dsimp only
  have hnewlines := hposition.newlines
  refine ⟨hd.bound, hshows, by omega, by omega, ⟨start, hposition.starts, hposition.column_pos, hposition.distance,
    hposition.unbroken⟩, ?_⟩
  rw [offsetOf?, hposition.starts]
  exact congrArg some hposition.distance

/-- A command at the end of the source that waits for a delimiter, on the third line: the error is at the end, behind
    the last byte. -/
theorem error_points_into_source_end :
    ∃ e, document .builtin (bytes "a\n\n\\verb") = .error e ∧ e.cause = .delimiterExpected ∧ e.offset = 8 ∧
      e.line = 3 ∧ e.column = 6 ∧ lineStart? 3 (bytes "a\n\n\\verb") = some 3 ∧
      offsetOf? (bytes "a\n\n\\verb") 3 6 = some e.offset := by
  have herror : document .builtin (bytes "a\n\n\\verb") = .error ⟨8, 3, 6, .delimiterExpected⟩ := rfl
  obtain ⟨-, -, -, -, -, hoffset⟩ := error_points_into_source herror
  exact ⟨_, herror, rfl, rfl, rfl, rfl, rfl, hoffset⟩

end Parse

end TexTidy
