import TexTidy.Proofs.Tight
import TexTidy.Text.Utf8

/-!
# TexTidy.Proofs.Columns

The lines of a sheet and their columns. The renderer counts a column for each space it writes and the measure
of each text; `Columns` is that count for a line. A line is *kept* on a page (`Page.Kept`) in one of three
ways: it is an indentation and one run without a space, it is within the width, or all of it up to its last
run is.

A sheet is *at* a line (`Page.At`) if this is what is written on it since the last line break and all lines
before are kept. Each way of writing keeps that up.
-/

namespace TexTidy

namespace Bytes

/-- The text does not begin inside a character. -/
def isWhole (s : Bytes) : Bool :=
  !s.head?.any Utf8.isTail

/-- The text holds no blank and begins with a character. -/
def isSolid (s : Bytes) : Bool :=
  s.isWhole && s.all fun b => !isBlank b

/-- Lines, each with its newline. -/
def unlines (lines : List Bytes) : Bytes :=
  lines.flatMap (· ++ [Byte.newline])

variable {s t : Bytes}

@[simp] theorem isSolid_nil : isSolid [] = true := rfl

theorem isSolid_append (hs : s.isSolid = true) (ht : t.isSolid = true) : (s ++ t).isSolid = true := by
  cases s with
  | nil => exact ht
  | cons b s => simp_all [isSolid, isWhole]

theorem isWhole_of_isSolid (hs : s.isSolid = true) : s.isWhole = true :=
  (Bool.and_eq_true_iff.1 hs).1

theorem isBlank_of_isSolid (hs : s.isSolid = true) {b : UInt8} (hb : b ∈ s) : isBlank b = false := by
  simpa using List.all_eq_true.1 (Bool.and_eq_true_iff.1 hs).2 b hb

theorem newline_notMem_of_isSolid (hs : s.isSolid = true) : Byte.newline ∉ s :=
  fun hmem => by cases isBlank_of_isSolid hs hmem

theorem space_notMem_of_isSolid (hs : s.isSolid = true) : Byte.space ∉ s :=
  fun hmem => by cases isBlank_of_isSolid hs hmem

theorem newline_notMem_spaces (n : Nat) : Byte.newline ∉ spaces n :=
  fun hmem => by cases List.eq_of_mem_replicate hmem

theorem unlines_append_singleton (lines : List Bytes) (line : Bytes) :
    unlines (lines ++ [line]) = unlines lines ++ line ++ [Byte.newline] := by
  simp [unlines, List.flatMap_append]

/-- Lines end in a newline, if there are any. -/
theorem unlines_cases (lines : List Bytes) :
    unlines lines = [] ∨ ∃ s, unlines lines = s ++ [Byte.newline] := by
  rcases List.eq_nil_or_concat lines with rfl | ⟨lines, line, rfl⟩
  · exact .inl rfl
  · exact .inr ⟨unlines lines ++ line, by rw [List.concat_eq_append, unlines_append_singleton]⟩

/-- The lines of a text are read back from it. -/
theorem splitOn_unlines {lines : List Bytes} {last : Bytes} (hlines : ∀ line ∈ lines, Byte.newline ∉ line)
    (hlast : Byte.newline ∉ last) : (unlines lines ++ last).splitOn Byte.newline = lines ++ [last] := by
  induction lines with
  | nil => exact List.splitOn_eq_singleton hlast
  | cons line lines ih =>
    have htext : unlines (line :: lines) ++ last = line ++ Byte.newline :: (unlines lines ++ last) := by
      simp [unlines]
    rw [htext, List.splitOn_append_cons_self_of_not_mem (hlines line List.mem_cons_self),
      ih fun line hline => hlines line (List.mem_cons_of_mem _ hline), List.cons_append]

end Bytes

/-! ## the ends of lines -/

namespace Text

theorem tight_append_isSolid {s t : Bytes} (ht : t.isSolid = true) (hne : t ≠ []) : Tight (s ++ t) := by
  refine tight_append (List.getLast?_eq_some_getLast hne) ?_
  have hblank := Bytes.isBlank_of_isSolid ht (List.getLast_mem hne)
  simp_all [isBlank, isPad]

/-- A space at the end is stripped, unless it is that of a control space. -/
theorem stripEnd_space (s : Bytes) :
    stripEnd isPad (s ++ [Byte.space]) = stripEnd isPad s ∨
      stripEnd isPad (s ++ [Byte.space]) = s ++ [Byte.space] := by
  have hpad : isPad Byte.space = true := rfl
  unfold stripEnd stripReversed
  simp only [List.reverse_append, List.reverse_singleton, List.singleton_append, List.takeWhile_cons,
    List.dropWhile_cons, hpad, if_true]
  cases hlast : (s.reverse.takeWhile isPad).getLast? with
  | none =>
    -- nothing else is stripped from the text
    have hnil : s.reverse.takeWhile isPad = [] := List.getLast?_eq_none_iff.1 hlast
    have hbody : s.reverse.dropWhile isPad = s.reverse := by
      simpa [hnil] using List.takeWhile_append_dropWhile (p := isPad) (l := s.reverse)
    rw [hnil, hbody, List.getLast?_singleton]
    dsimp only
    split
    · exact .inr (by simp)
    · exact .inl rfl
  | some b => exact .inl (by rw [List.getLast?_cons, hlast, Option.getD_some])

/-- Stripping does not reach beyond a newline. -/
theorem stripEnd_unlines (lines : List Bytes) (line : Bytes) :
    stripEnd isPad (Bytes.unlines lines ++ line) = Bytes.unlines lines ++ stripEnd isPad line := by
  obtain hnil | ⟨s, hs⟩ := Bytes.unlines_cases lines
  · simp [hnil]
  · have hpad : isPad Byte.newline = false := rfl
    have htake : (line.reverse ++ Byte.newline :: s.reverse).takeWhile isPad =
        line.reverse.takeWhile isPad := by
      rw [List.takeWhile_append]
      split
      · next h =>
        rw [List.takeWhile_cons_of_neg (by simp [hpad]), List.append_nil]
        exact ((List.takeWhile_prefix _).eq_of_length h).symm
      · rfl
    have hdrop : (line.reverse ++ Byte.newline :: s.reverse).dropWhile isPad =
        line.reverse.dropWhile isPad ++ Byte.newline :: s.reverse := by
      rw [List.dropWhile_append]
      split
      · next h =>
        rw [List.dropWhile_cons_of_neg (by simp [hpad]), List.isEmpty_iff.1 h, List.nil_append]
      · rfl
    have hescaped : endsEscaped (line.reverse.dropWhile isPad ++ Byte.newline :: s.reverse) =
        endsEscaped (line.reverse.dropWhile isPad) := by
      have hlast : (s ++ [Byte.newline]).getLast? ≠ some Byte.backslash := by
        rw [List.getLast?_concat]
        decide
      simpa using endsEscaped_append hlast (line.reverse.dropWhile isPad)
    rw [hs]
    unfold stripEnd stripReversed
    simp only [List.reverse_append, List.reverse_singleton, List.singleton_append, htake, hdrop, hescaped]
    split
    · simp
    · split <;> simp

theorem stripEnd_spaces (n : Nat) : stripEnd isPad (Bytes.spaces n) = [] := by
  have hdrop : (Bytes.spaces n).reverse.dropWhile isPad = [] := by
    rw [Bytes.spaces, List.reverse_replicate, List.dropWhile_replicate]
    exact if_pos rfl
  have htake := List.takeWhile_append_dropWhile (p := isPad) (l := (Bytes.spaces n).reverse)
  rw [hdrop, List.append_nil] at htake
  unfold stripEnd stripReversed
  simp only [hdrop]
  split
  · next h => rw [← htake, List.getLast?_eq_none_iff.1 h, List.reverse_nil]
  · rfl

end Text

/-! ## columns -/

namespace Layout

/-- What a way to measure texts has to fulfil for the columns of a line to be a bound of its measure. -/
structure IsMeasure (measure : Bytes → Nat) : Prop where
  nil : measure [] = 0
  space : measure [Byte.space] ≤ 1
  append : ∀ s t : Bytes, t.isWhole = true → measure (s ++ t) ≤ measure s + measure t

/-- The columns of a line of texts and spaces. -/
inductive Columns (measure : Bytes → Nat) : Nat → Bytes → Prop
  | nil : Columns measure 0 []
  | text {k : Nat} {line s : Bytes} (columns : Columns measure k line) (solid : s.isSolid = true) :
      Columns measure (k + measure s) (line ++ s)
  | space {k : Nat} {line : Bytes} (columns : Columns measure k line) :
      Columns measure (k + 1) (line ++ [Byte.space])

namespace Columns

variable {measure : Bytes → Nat} {k : Nat} {line : Bytes}

theorem spaces (n : Nat) : Columns measure n (Bytes.spaces n) := by
  induction n with
  | zero => exact .nil
  | succ n ih => simpa [Bytes.spaces, List.replicate_succ'] using ih.space

theorem newline_notMem (h : Columns measure k line) : Byte.newline ∉ line := by
  induction h with
  | nil => exact List.not_mem_nil
  | text _ solid ih => simpa [ih] using Bytes.newline_notMem_of_isSolid solid
  | space _ ih => simpa [ih] using by decide

theorem measure_le (hmeasure : IsMeasure measure) (h : Columns measure k line) : measure line ≤ k := by
  induction h with
  | nil => exact Nat.le_of_eq hmeasure.nil
  | @text k line s _ solid ih =>
    exact Nat.le_trans (hmeasure.append line s (Bytes.isWhole_of_isSolid solid))
      (Nat.add_le_add_right ih _)
  | @space k line _ ih =>
    exact Nat.le_trans (hmeasure.append line _ (by decide)) (Nat.add_le_add ih hmeasure.space)

/-- A line that is stripped has no more columns than before. -/
theorem stripEnd (h : Columns measure k line) :
    ∃ m ≤ k, Columns measure m (Text.stripEnd isPad line) := by
  induction h with
  | nil => exact ⟨0, Nat.le_refl 0, .nil⟩
  | @text k line s columns solid ih =>
    by_cases hs : s = []
    · obtain ⟨m, hm, hstrip⟩ := ih
      exact ⟨m, by omega, by simpa [hs] using hstrip⟩
    · refine ⟨k + measure s, Nat.le_refl _, ?_⟩
      rw [Text.tight_append_isSolid solid hs]
      exact columns.text solid
  | @space k line columns ih =>
    obtain ⟨m, hm, hstrip⟩ := ih
    rcases Text.stripEnd_space line with heq | heq
    · exact ⟨m, by omega, by rwa [heq]⟩
    · exact ⟨k + 1, Nat.le_refl _, by rw [heq]; exact columns.space⟩

end Columns

/-! ## lines that are kept -/

namespace Page

/-- A line that text can be added to although nobody asked whether it fits: an indentation and one run, or,
    where nested sequences hold spaces (`spaced`), a front within the width, a space and one run. -/
inductive Loose (page : Page) (spaced : Bool) : Bytes → Prop
  | run (n : Nat) {run : Bytes} (solid : run.isSolid = true) : Loose page spaced (Bytes.spaces n ++ run)
  | front {k : Nat} {front run : Bytes} (allowed : spaced = true) (columns : Columns page.measure k front)
      (fits : k ≤ page.width) (solid : run.isSolid = true) : Loose page spaced (front ++ Byte.space :: run)

/-- A line that respects the width of the page. -/
inductive Kept (page : Page) (spaced : Bool) : Bytes → Prop
  | loose {line : Bytes} (loose : Loose page spaced line) : Kept page spaced line
  | within {k : Nat} {line : Bytes} (columns : Columns page.measure k line) (fits : k ≤ page.width) :
      Kept page spaced line

variable {page : Page} {spaced : Bool} {line s : Bytes}

theorem loose_spaces (n : Nat) : Loose page spaced (Bytes.spaces n) := by
  rw [← List.append_nil (Bytes.spaces n)]
  exact .run n Bytes.isSolid_nil

theorem Loose.append (h : Loose page spaced line) (hs : s.isSolid = true) :
    Loose page spaced (line ++ s) := by
  cases h with
  | run n solid => simpa using Loose.run n (Bytes.isSolid_append solid hs)
  | front allowed columns fits solid =>
    simpa using Loose.front allowed columns fits (Bytes.isSolid_append solid hs)

theorem Kept.newline_notMem (h : Kept page spaced line) : Byte.newline ∉ line := by
  cases h with
  | within columns _ => exact columns.newline_notMem
  | loose loose =>
    cases loose with
    | run n solid => simp [Bytes.newline_notMem_spaces, Bytes.newline_notMem_of_isSolid solid]
    | front _ columns _ solid =>
      have hspace : Byte.newline ≠ Byte.space := by decide
      simp [columns.newline_notMem, hspace, Bytes.newline_notMem_of_isSolid solid]

theorem Loose.kept_stripEnd (h : Loose page spaced line) : Kept page spaced (Text.stripEnd isPad line) := by
  cases h with
  | @run n run solid =>
    by_cases hrun : run = []
    · rw [hrun, List.append_nil, Text.stripEnd_spaces]
      exact .loose (loose_spaces 0)
    · rw [Text.tight_append_isSolid solid hrun]
      exact .loose (.run n solid)
  | @front k front run allowed columns fits solid =>
    by_cases hrun : run = []
    · obtain ⟨m, hm, hstrip⟩ := columns.stripEnd
      subst hrun
      rcases Text.stripEnd_space front with heq | heq
      · rw [heq]
        exact .within hstrip (by omega)
      · rw [heq]
        exact .loose (.front allowed columns fits Bytes.isSolid_nil)
    · rw [List.append_cons, Text.tight_append_isSolid solid hrun, ← List.append_cons]
      exact .loose (.front allowed columns fits solid)

/-- A line stays kept when the blanks at its end are removed. -/
theorem Kept.stripEnd (h : Kept page spaced line) : Kept page spaced (Text.stripEnd isPad line) := by
  cases h with
  | loose loose => exact loose.kept_stripEnd
  | within columns fits =>
    obtain ⟨m, hm, hstrip⟩ := columns.stripEnd
    exact .within hstrip (by omega)

/-! ## sheets -/

/-- The sheet is at a line: it is what is written since the last line break, and all lines before it
    are kept. -/
def At (page : Page) (spaced : Bool) (sheet : Sheet) (line : Bytes) : Prop :=
  Columns page.measure sheet.column line ∧
    ∃ lines, (∀ l ∈ lines, Kept page spaced l) ∧ sheet.text = Bytes.unlines lines ++ line

variable {sheet : Sheet}

theorem at_blank : At page spaced .blank [] :=
  ⟨.nil, [], List.forall_mem_nil _, rfl⟩

theorem At.write (h : At page spaced sheet line) (hs : s.isSolid = true) :
    At page spaced (sheet.write page.measure s) (line ++ s) := by
  obtain ⟨columns, lines, hlines, htext⟩ := h
  have hnewline : s.hasNewline = false := by
    simpa [Bytes.hasNewline] using Bytes.newline_notMem_of_isSolid hs
  refine ⟨?_, lines, hlines, by rw [Sheet.text_write, htext, List.append_assoc]⟩
  rw [Sheet.write, hnewline]
  exact columns.text hs

theorem At.writeSpace (h : At page spaced sheet line) :
    At page spaced sheet.writeSpace (line ++ [Byte.space]) := by
  obtain ⟨columns, lines, hlines, htext⟩ := h
  exact ⟨columns.space, lines, hlines, by rw [Sheet.text_writeSpace, htext, List.append_assoc]⟩

/-- A line break keeps the line that it ends. -/
theorem At.breakLine (h : At page spaced sheet line) (hline : Kept page spaced line) (indent : Nat) :
    At page spaced (sheet.breakLine indent) (Bytes.spaces indent) := by
  obtain ⟨_, lines, hlines, htext⟩ := h
  refine ⟨.spaces indent, lines ++ [Text.stripEnd isPad line], ?_, ?_⟩
  · simpa [or_imp, forall_and] using ⟨hlines, hline.stripEnd⟩
  · rw [Sheet.text_breakLine, htext, broken, Text.stripEnd_unlines, Bytes.unlines_append_singleton]
    simp

end Page

end Layout

end TexTidy
