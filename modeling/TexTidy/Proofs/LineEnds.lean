import TexTidy.Proofs.Columns

/-!
# TexTidy.Proofs.LineEnds

No line of a rendered document ends in blanks. A line break strips the blanks in front of it, and nothing is written on
a line once it is broken, so it is enough that the line is clean at that moment: `Sealed` says of what is written so
far that all lines but the last are clean. Each way of writing keeps this up (`Sealed.append`, `Sealed.broken`), also a
line break right behind the indentation of a line, which leaves that line empty.

The one blank that may stand at the end of a line is that of a control space, behind an odd number of backslashes.
-/

namespace TexTidy

/-! ## clean lines -/

namespace Text

/-- What the end of a line may look like: the line is empty, it ends in a byte that is no blank, or it ends in an odd
    run of backslashes and one blank. -/
inductive Clean : Bytes → Prop
  | empty : Clean []
  | solid (front : Bytes) {b : UInt8} (hb : isPad b = false) : Clean (front ++ [b])
  | control (front : Bytes) (n : Nat) {b : UInt8} (hfront : front.getLast? ≠ some Byte.backslash)
      (hb : isPad b = true) : Clean (front ++ List.replicate (2 * n + 1) Byte.backslash ++ [b])

/-- A text, given from its last byte on, that begins with no blank. -/
theorem clean_reverse {rev : Bytes} (h : rev.head?.any isPad = false) : Clean rev.reverse := by
  cases rev with
  | nil => exact .empty
  | cons b rev =>
    rw [List.reverse_cons]
    exact .solid rev.reverse (by simpa using h)

/-- A text that ends in an odd number of backslashes. -/
theorem exists_of_endsEscaped {rev : Bytes} (h : endsEscaped rev = true) :
    ∃ front n, rev.reverse = front ++ List.replicate (2 * n + 1) Byte.backslash ∧
      front.getLast? ≠ some Byte.backslash := by
  obtain ⟨n, hodd⟩ : ∃ n, (rev.takeWhile (· == Byte.backslash)).length = 2 * n + 1 := by
    have hmod : (rev.takeWhile (· == Byte.backslash)).length % 2 = 1 := by simpa [endsEscaped] using h
    exact ⟨(rev.takeWhile (· == Byte.backslash)).length / 2, by omega⟩
  have hrun : rev.takeWhile (· == Byte.backslash) = List.replicate (2 * n + 1) Byte.backslash :=
    List.eq_replicate_iff.2 ⟨hodd, fun b hb => by simpa using List.all_eq_true.1 List.all_takeWhile b hb⟩
  refine ⟨(rev.dropWhile (· == Byte.backslash)).reverse, n, ?_, fun hlast => ?_⟩
  · rw [← List.reverse_replicate, ← hrun, ← List.reverse_append, List.takeWhile_append_dropWhile]
  · have hhead := Bytes.head?_dropWhile (· == Byte.backslash) rev
    rw [List.getLast?_reverse] at hlast
    rw [hlast] at hhead
    cases hhead

/-- **Stripping leaves a clean end.** -/
theorem clean_stripEnd (s : Bytes) : Clean (stripEnd isPad s) := by
  have hbody := Bytes.head?_dropWhile isPad s.reverse
  unfold stripEnd stripReversed
  dsimp only
  split
  · next hnone =>
    have hsame : s.reverse.dropWhile isPad = s.reverse := by
      simpa [List.getLast?_eq_none_iff.1 hnone] using
        List.takeWhile_append_dropWhile (p := isPad) (l := s.reverse)
    rw [hsame] at hbody
    exact clean_reverse hbody
  · next b hlast =>
    split
    · next hescaped =>
      have hb : isPad b = true := List.all_eq_true.1 List.all_takeWhile b (List.mem_of_getLast? hlast)
      obtain ⟨front, n, hfront, hne⟩ := exists_of_endsEscaped hescaped
      rw [List.reverse_cons, hfront]
      exact .control front n hne hb
    · exact clean_reverse hbody

end Text

/-! ## sealed lines -/

namespace Layout

open Text (Clean clean_stripEnd stripEnd stripEnd_unlines)

/-- All lines of a text but the last are clean. -/
def Sealed (s : Bytes) : Prop :=
  ∃ lines last, s = Bytes.unlines lines ++ last ∧ (∀ line ∈ lines, Byte.newline ∉ line ∧ Clean line) ∧
    Byte.newline ∉ last

namespace Sealed

variable {s w : Bytes}

theorem nil : Sealed [] :=
  ⟨[], [], rfl, by simp, by simp⟩

/-- Text is written on the last line. -/
theorem append (h : Sealed s) (hw : Byte.newline ∉ w) : Sealed (s ++ w) := by
  obtain ⟨lines, last, rfl, hlines, hlast⟩ := h
  exact ⟨lines, last ++ w, List.append_assoc _ _ _, hlines, by simp [hlast, hw]⟩

/-- A line break leaves the last line clean and begins another one. -/
theorem broken (h : Sealed s) (indent : Nat) : Sealed (broken indent s) := by
  obtain ⟨lines, last, rfl, hlines, hlast⟩ := h
  refine ⟨lines ++ [stripEnd isPad last], Bytes.spaces indent, ?_, fun line hline => ?_,
    Bytes.newline_notMem_spaces indent⟩
  · rw [Layout.broken, stripEnd_unlines, Bytes.unlines_append_singleton]
    simp
  · rcases List.mem_append.1 hline with hline | hline
    · exact hlines line hline
    · rw [List.mem_singleton.1 hline]
      exact ⟨fun hmem => hlast ((Text.mem_stripEnd_iff rfl).1 hmem), clean_stripEnd last⟩

/-- **Writing a document keeps the lines sealed,** whichever line breaks are taken. -/
theorem writes {as : List Atom} {t : Bytes} (h : Sealed s) (hwrites : Writes as s t)
    (htexts : ∀ w, Atom.text w ∈ as → Byte.newline ∉ w) : Sealed t := by
  induction as generalizing s with
  | nil =>
    cases hwrites
    exact h
  | cons a as ih =>
    have hmore : ∀ w, Atom.text w ∈ as → Byte.newline ∉ w := fun w hw => htexts w (List.mem_cons_of_mem _ hw)
    cases a with
    | text w => exact ih (h.append (htexts w List.mem_cons_self)) hwrites hmore
    | line =>
      rcases hwrites with hwrites | ⟨indent, hwrites⟩
      · exact ih (h.append (by decide)) hwrites hmore
      · exact ih (h.broken indent) hwrites hmore
    | softLine =>
      rcases hwrites with hwrites | ⟨indent, hwrites⟩
      · exact ih h hwrites hmore
      · exact ih (h.broken indent) hwrites hmore
    | hardLine =>
      obtain ⟨indent, hwrites⟩ := hwrites
      exact ih (h.broken indent) hwrites hmore

/-- With the blanks at its end stripped, all lines of a text are clean. -/
theorem clean (h : Sealed s) : ∀ line ∈ (stripEnd isPad s).splitOn Byte.newline, Clean line := by
  obtain ⟨lines, last, rfl, hlines, hlast⟩ := h
  have hstrip : Byte.newline ∉ stripEnd isPad last := fun hmem => hlast ((Text.mem_stripEnd_iff rfl).1 hmem)
  rw [stripEnd_unlines, Bytes.splitOn_unlines (fun line hline => (hlines line hline).1) hstrip]
  intro line hline
  rcases List.mem_append.1 hline with hline | hline
  · exact (hlines line hline).2
  · rw [List.mem_singleton.1 hline]
    exact clean_stripEnd last

end Sealed

/-- **No line of a rendered document ends in blanks,** but for the blank of a control space: if the texts of the document
    hold no newline, each line is empty, ends in a byte that is no blank, or ends in an odd run of backslashes and one
    blank. -/
theorem Page.render_ends_lines_clean (page : Page) {d : Doc}
    (h : ∀ s, Atom.text s ∈ d.atoms → Byte.newline ∉ s) :
    ∀ line ∈ (page.render d).splitOn Byte.newline, Clean line := by
  obtain ⟨t, hwrites, hrender⟩ := page.writes_render d
  rw [hrender]
  exact (Sealed.nil.writes hwrites h).clean

/-- Blanks at the ends of lines and on a line of their own, a control space, and a blank behind two backslashes. -/
theorem Page.render_ends_lines_clean_control :
    ∃ d out, d = Doc.indent (.concat [.text (bytes "a \t"), .hardLine, .text (bytes " "), .hardLine,
        .group (.concat [.text (bytes "b\\"), .line, .text (bytes " ")]), .hardLine, .text (bytes "c\\\\ ")]) ∧
      (Page.mk 80 2 List.length).render d = out ∧ out = bytes "a\n\n  b\\ \n  c\\\\" ∧
      ∀ line ∈ out.splitOn Byte.newline, Clean line := by
  refine ⟨_, _, rfl, rfl, by decide +kernel, Page.render_ends_lines_clean _ fun s hs => ?_⟩
  simp only [Doc.atoms, Doc.atomsAll, List.append_nil, List.cons_append, List.nil_append, List.mem_cons,
    Atom.text.injEq, reduceCtorEq, List.not_mem_nil, or_false, false_or] at hs
  rcases hs with rfl | rfl | rfl | rfl | rfl <;> decide

end Layout

end TexTidy
