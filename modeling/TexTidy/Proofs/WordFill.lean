import TexTidy.Proofs.Greedy
import TexTidy.Proofs.GroupFit

/-!
# TexTidy.Proofs.WordFill

A fill of words is wrapped greedily. Before it writes a content the renderer asks whether this content, a space and
the next content fit, and that is where the next word goes: the words that are on the line, counted with the spaces
between them, are the column of the sheet (`Opens`, `Closes`). So what is written are the lines of `setOnto`, which
looks at widths only.

The words of a text have spaces or paragraph breaks between them. A fill with spaces only is one paragraph, whose
lines are those of `Wrap.wrap`.
-/

namespace TexTidy.Layout

open Wrap (columns wrapOnto wrap)

@[simp] theorem unlines_nil : Bytes.unlines [] = [] := rfl

@[simp] theorem unlines_cons (line : Bytes) (lines : List Bytes) :
    Bytes.unlines (line :: lines) = line ++ Byte.newline :: Bytes.unlines lines := by
  simp [Bytes.unlines]

/-! ## words and gaps -/

/-- What stands between two words. -/
inductive WordGap where
  | space
  | paragraph
  deriving DecidableEq, Repr

/-- The layout of a gap. -/
def WordGap.doc : WordGap → Doc
  | .space => .line
  | .paragraph => .concat [.hardLine, .hardLine]

/-- A text that is written as it stands: neither its ends nor its inside are touched by line breaks. -/
structure IsWord (w : Bytes) : Prop where
  ne_nil : w ≠ []
  solid : ∀ b ∈ w, isPad b = false ∧ b ≠ Byte.newline

theorem isWord_iff {w : Bytes} : (!w.isEmpty && w.all fun b => !isPad b && b != Byte.newline) = true ↔ IsWord w := by
  constructor
  · intro h
    obtain ⟨hne, hall⟩ := Bool.and_eq_true_iff.1 h
    exact ⟨by simpa using hne, by simpa using hall⟩
  · rintro ⟨hne, hall⟩
    simpa using And.intro hne hall

instance (w : Bytes) : Decidable (IsWord w) :=
  decidable_of_iff _ isWord_iff

/-- The parts of a fill for a word and the words after it, when `content` is the layout of a word. -/
def fillWords (content : Bytes → Doc) (w : Bytes) : List (WordGap × Bytes) → List Doc
  | [] => [content w]
  | (gap, v) :: gs => content w :: gap.doc :: fillWords content v gs

/-- The lines of the words after those on a line. A paragraph break leaves a line empty. -/
def setOnto (measure : Bytes → Nat) (room : Int) (line : List Bytes) : List (WordGap × Bytes) → List (List Bytes)
  | [] => [line]
  | (.space, w) :: gs =>
    if columns measure (line ++ [w]) ≤ room then setOnto measure room (line ++ [w]) gs
    else line :: setOnto measure room [w] gs
  | (.paragraph, w) :: gs => line :: [] :: setOnto measure room [w] gs

/-- How the words of a line are written. -/
def wordLine (indent : Nat) (line : List Bytes) : Bytes :=
  if line.isEmpty then [] else Bytes.spaces indent ++ Bytes.join [Byte.space] line

namespace IsWord

variable {w : Bytes}

theorem hasNewline (h : IsWord w) : w.hasNewline = false := by
  simpa [Bytes.hasNewline] using fun hmem => (h.solid _ hmem).2 rfl

/-- A text that ends in a word ends in neither a blank of the line nor a newline. -/
theorem exists_getLast? (h : IsWord w) (s : Bytes) :
    ∃ b, (s ++ w).getLast? = some b ∧ isPad b = false ∧ b ≠ Byte.newline := by
  refine ⟨w.getLast h.ne_nil, ?_, h.solid _ (List.getLast_mem h.ne_nil)⟩
  rw [List.getLast?_append, List.getLast?_eq_some_getLast h.ne_nil]
  rfl

theorem tight_append (h : IsWord w) (s : Bytes) : Text.Tight (s ++ w) :=
  Text.tight_append (List.getLast?_eq_some_getLast h.ne_nil) (h.solid _ (List.getLast_mem h.ne_nil)).1

end IsWord

theorem join_concat (line : List Bytes) (w : Bytes) :
    Bytes.join [Byte.space] (line ++ [w]) = line.flatMap (· ++ [Byte.space]) ++ w := by
  induction line with
  | nil => simp [Bytes.join]
  | cons v line ih =>
    cases line with
    | nil => simp [Bytes.join]
    | cons u line => simpa [Bytes.join] using ih

theorem wordLine_concat (indent : Nat) (line : List Bytes) (w : Bytes) :
    wordLine indent (line ++ [w]) = Bytes.spaces indent ++ line.flatMap (· ++ [Byte.space]) ++ w := by
  simp [wordLine, join_concat]

/-! ## the words of a line -/

/-- The sheet is where the next word goes on its line; `done` are the lines before that line. -/
structure Opens (page : Page) (indent : Nat) (done : List Bytes) (line : List Bytes) (sheet : Sheet) : Prop where
  text : sheet.text = Bytes.unlines done ++ Bytes.spaces indent ++ line.flatMap (· ++ [Byte.space])
  column : ∀ w, sheet.column + page.measure w = indent + columns page.measure (line ++ [w])

/-- The sheet is behind the last word of its line. -/
structure Closes (page : Page) (indent : Nat) (done : List Bytes) (line : List Bytes) (sheet : Sheet) : Prop where
  text : sheet.text = Bytes.unlines done ++ wordLine indent line
  column : sheet.column = indent + columns page.measure line

section Line

variable {page : Page} {indent : Nat} {done : List Bytes} {line : List Bytes} {sheet : Sheet} {w : Bytes}

theorem Opens.write (h : Opens page indent done line sheet) (hw : IsWord w) :
    Closes page indent done (line ++ [w]) (sheet.write page.measure w) := by
  refine ⟨?_, ?_⟩
  · simp [h.text, wordLine_concat]
  · rw [Sheet.write_eq_put hw.hasNewline, Sheet.column_put, h.column]

/-- The columns behind an open line can be counted if those behind its indentation can, since a negative width leaves
    no room for a word on it. -/
theorem Opens.counts (h : Opens page indent done line sheet) (hindent : page.Counts indent)
    (hline : line = [] ∨ 0 ≤ page.width) : page.Counts sheet.column := by
  rcases hline with rfl | hwidth
  · have hcolumn : sheet.column = indent := by simpa using h.column []
    rwa [hcolumn]
  · exact .inl hwidth

theorem Closes.writeSpace (h : Closes page indent done (line ++ [w]) sheet) :
    Opens page indent done (line ++ [w]) sheet.writeSpace := by
  refine ⟨?_, fun v => ?_⟩
  · simp [h.text, wordLine_concat]
  · have hline := @Wrap.columns_concat page.measure (line ++ [w]) (by simp) v
    have hcolumn := h.column
    rw [Sheet.writeSpace_eq_put, Sheet.column_put]
    omega

/-- Behind a line break a new line is open. -/
theorem Closes.breakLine (h : Closes page indent done (line ++ [w]) sheet) (hw : IsWord w) :
    Opens page indent (done ++ [wordLine indent (line ++ [w])]) [] (sheet.breakLine indent) := by
  have htight : Text.Tight sheet.text := by
    rw [h.text, wordLine_concat, ← List.append_assoc]
    exact hw.tight_append _
  refine ⟨?_, fun v => by simp [Sheet.breakLine]⟩
  rw [Sheet.text_breakLine, broken_tight htight, h.text, Bytes.unlines_append_singleton]
  simp

/-- A line break on an empty line leaves nothing on it. -/
theorem Opens.breakLine (h : Opens page indent done [] sheet) :
    Opens page indent (done ++ [[]]) [] (sheet.breakLine indent) := by
  refine ⟨?_, fun v => by simp [Sheet.breakLine]⟩
  have hstrip := Text.stripEnd_unlines done (Bytes.spaces indent)
  rw [Text.stripEnd_spaces, List.append_nil] at hstrip
  have htext : sheet.text = Bytes.unlines done ++ Bytes.spaces indent := by simpa using h.text
  rw [Sheet.text_breakLine, broken, htext, hstrip, Bytes.unlines_append_singleton]
  simp

/-- Behind a paragraph break a new line is open, with an empty one before it. -/
theorem Closes.paragraph (h : Closes page indent done (line ++ [w]) sheet) (hw : IsWord w) (style : Style)
    (pending : Pending) :
    Opens page indent (done ++ [wordLine indent (line ++ [w])] ++ [[]]) []
      (page.renderDoc indent style pending WordGap.paragraph.doc sheet) := by
  -- Whether a line was broken inside a flat part does not show.
  have hflag : ∀ {done line sheet} flag, Opens page indent done line sheet →
      Opens page indent done line { sheet with brokenFlat := flag } := fun _ h => ⟨h.text, h.column⟩
  cases style with
  | flat => exact hflag true (h.breakLine hw).breakLine
  | broken => exact (h.breakLine hw).breakLine

end Line

/-! ## the lines of a fill -/

/-- A document is a word by itself or the only content of an item. -/
def IsWordDoc (content : Bytes → Doc) : Prop :=
  ∀ w, content w = .text w ∨ content w = .concat [.text w]

namespace IsWordDoc

variable {content : Bytes → Doc} (h : IsWordDoc content)
include h

theorem renderDoc_eq (page : Page) (indent : Nat) (style : Style) (pending : Pending) (w : Bytes) (sheet : Sheet) :
    page.renderDoc indent style pending (content w) sheet = sheet.write page.measure w := by
  rcases h w with hw | hw <;> rw [hw] <;> rfl

theorem columns_eq (measure : Bytes → Nat) (w : Bytes) : (content w).columns measure = measure w := by
  rcases h w with hw | hw <;> simp [hw, Doc.columns]

theorem hard_eq {w : Bytes} (hw : IsWord w) : (content w).hard = false := by
  rcases h w with hdoc | hdoc <;> simp [hdoc, Doc.hard, Doc.hardAny, hw.hasNewline]

/-- Whether the next word fits is what the renderer asks before it writes a word. -/
theorem fitsOn_pair {page : Page} {indent : Nat} {done : List Bytes} {w v : Bytes} {line : List Bytes}
    {sheet : Sheet} (hsheet : Opens page indent done line sheet) (hcounts : page.Counts sheet.column) (hw : IsWord w)
    (hv : IsWord v) :
    page.fitsOn true [(.flat, [content w, .line, content v])] sheet =
      decide (columns page.measure (line ++ [w] ++ [v]) ≤ page.width - indent) := by
  have hhard : Doc.hardAny [content w, .line, content v] = false := by
    simp [Doc.hardAny, Doc.hard, h.hard_eq hw, h.hard_eq hv]
  have hcolumn := hsheet.column w
  have hline := @Wrap.columns_concat page.measure (line ++ [w]) (by simp) v
  rw [Page.fitsOn_eq (spendsAll_of_hard _ hhard) true hcounts, decide_eq_decide]
  simp only [Doc.columnsAll_cons, Doc.columnsAll_nil, h.columns_eq, Doc.columns]
  omega

end IsWordDoc

theorem exists_fillWords_eq (content : Bytes → Doc) (w : Bytes) (gs : List (WordGap × Bytes)) :
    ∃ parts, fillWords content w gs = content w :: parts := by
  cases gs with
  | nil => exact ⟨[], rfl⟩
  | cons p gs => exact ⟨_, rfl⟩

/-- The text consists of lines, and it ends in a word. -/
structure Sets (lines : List Bytes) (text : Bytes) : Prop where
  eq : text ++ [Byte.newline] = Bytes.unlines lines
  last : ∃ b, text.getLast? = some b ∧ isPad b = false ∧ b ≠ Byte.newline

/-- **A fill of words is written line by line**, each line as long as greed makes it. -/
theorem sets_renderFill {content : Bytes → Doc} (hcontent : IsWordDoc content) (page : Page) (indent : Nat)
    (style : Style) (pending : Pending) {done : List Bytes} {w : Bytes} {line : List Bytes}
    {gs : List (WordGap × Bytes)} {sheet : Sheet} (hindent : page.Counts indent)
    (hsheet : Opens page indent done line sheet) (hline : line = [] ∨ 0 ≤ page.width) (hw : IsWord w)
    (hgs : ∀ p ∈ gs, IsWord p.2) :
    Sets (done ++ (setOnto page.measure (page.width - indent) (line ++ [w]) gs).map (wordLine indent))
      (page.renderFill indent style pending (fillWords content w gs) sheet).text := by
  induction gs generalizing done w line sheet with
  | nil =>
    rw [fillWords, Page.renderFill, hcontent.renderDoc_eq, (hsheet.write hw).text]
    refine ⟨?_, ?_⟩
    · simp [setOnto, Bytes.unlines_append_singleton]
    · rw [wordLine_concat, ← List.append_assoc]
      exact hw.exists_getLast? _
  | cons p gs ih =>
    obtain ⟨gap, v⟩ := p
    obtain ⟨hv, hgs'⟩ := List.forall_mem_cons.1 hgs
    have hclosed := hsheet.write hw
    obtain ⟨contentStyle, inner, outer, hfill⟩ :=
      page.renderFill_cons indent style pending (content w) gap.doc (fillWords content v gs) sheet
    rw [fillWords, hfill, hcontent.renderDoc_eq]
    cases gap with
    | paragraph => simpa [setOnto, wordLine] using ih (hclosed.paragraph hw _ outer) (.inl rfl) hv hgs'
    | space =>
      obtain ⟨parts, hparts⟩ := exists_fillWords_eq content v gs
      rw [hparts, Page.pair, WordGap.doc, hcontent.fitsOn_pair hsheet (hsheet.counts hindent hline) hw hv,
        ← hparts, setOnto]
      by_cases hfits : columns page.measure (line ++ [w] ++ [v]) ≤ page.width - indent
      · rw [decide_eq_true hfits, if_pos hfits]
        exact ih hclosed.writeSpace (.inr (by omega)) hv hgs'
      · rw [decide_eq_false hfits, if_neg hfits, List.map_cons, List.append_cons]
        exact ih (hclosed.breakLine hw) (.inl rfl) hv hgs'

namespace Sets

variable {lines : List Bytes} {text : Bytes}

theorem stripEnd (h : Sets lines text) : Text.stripEnd isPad text = text := by
  obtain ⟨b, hlast, hpad, -⟩ := h.last
  exact @Text.tight_append [] text b hlast hpad

theorem eq_join (h : Sets lines text) : text = Bytes.join [Byte.newline] lines := by
  have hunlines : ∀ ls : List Bytes, ls ≠ [] → Bytes.unlines ls = Bytes.join [Byte.newline] ls ++ [Byte.newline] := by
    intro ls hne
    induction ls with
    | nil => exact absurd rfl hne
    | cons l ls ih =>
      cases ls with
      | nil => simp [Bytes.join]
      | cons m ls => simpa [Bytes.join] using ih (by simp)
  have hne : lines ≠ [] := by
    rintro rfl
    simpa using h.eq
  exact List.append_cancel_right (h.eq.trans (hunlines lines hne))

end Sets

/-! ## one paragraph -/

/-- The fill of words with spaces between them. -/
def Doc.words (ws : List Bytes) : Doc :=
  .fill ((ws.map .text).intersperse .line)

theorem fillWords_spaces (w : Bytes) (ws : List Bytes) :
    fillWords .text w (ws.map (WordGap.space, ·)) = ((w :: ws).map Doc.text).intersperse .line := by
  induction ws generalizing w with
  | nil => rfl
  | cons v ws ih => simpa [fillWords, WordGap.doc] using ih v

theorem setOnto_spaces (measure : Bytes → Nat) (room : Int) (line ws : List Bytes) :
    setOnto measure room line (ws.map (WordGap.space, ·)) = wrapOnto measure room line ws := by
  induction ws generalizing line with
  | nil => rfl
  | cons w ws ih => simp [setOnto, wrapOnto, ih]

/-- A document inside several indentations. -/
def Doc.nest : Nat → Doc → Doc
  | 0, d => d
  | n + 1, d => .indent (nest n d)

namespace Page

variable (page : Page)

/-- The columns that are left behind the indentation of a level. -/
def room (level : Nat) : Int :=
  page.width - (level * page.step : Nat)

theorem renderDoc_nest (n indent : Nat) (style : Style) (pending : Pending) (d : Doc) (sheet : Sheet) :
    page.renderDoc indent style pending (d.nest n) sheet =
      page.renderDoc (indent + n * page.step) style pending d sheet := by
  induction n generalizing indent with
  | zero => simp [Doc.nest]
  | succ n ih => rw [Doc.nest, renderDoc, ih, Nat.succ_mul, Nat.add_assoc, Nat.add_comm page.step]

/-- The lines of words that are rendered behind some lines, with the next line open. -/
theorem sets_wrap {level : Nat} (hlevel : page.Counts (level * page.step)) (style : Style) (pending : Pending)
    {done words : List Bytes} {sheet : Sheet} (hsheet : Opens page (level * page.step) done [] sheet)
    (hne : words ≠ []) (hwords : ∀ w ∈ words, IsWord w) :
    Sets (done ++ (wrap page.measure (page.room level) words).map fun line =>
        Bytes.spaces (level * page.step) ++ Bytes.join [Byte.space] line)
      (page.renderDoc (level * page.step) style pending (.words words) sheet).text := by
  obtain ⟨w, ws, rfl⟩ := List.exists_cons_of_ne_nil hne
  obtain ⟨hw, hws⟩ := List.forall_mem_cons.1 hwords
  have hgs : ∀ p ∈ ws.map (WordGap.space, ·), IsWord p.2 := by simpa using hws
  have hsets := sets_renderFill (fun _ => .inl rfl) page (level * page.step) style pending hlevel hsheet (.inl rfl)
    hw hgs
  rw [fillWords_spaces, setOnto_spaces] at hsets
  have hfilled := (Wrap.isBreaking_wrap page.measure (page.room level) (w :: ws)).filled
  have hlines : ∀ line ∈ wrap page.measure (page.room level) (w :: ws), wordLine (level * page.step) line =
      Bytes.spaces (level * page.step) ++ Bytes.join [Byte.space] line := fun line hline => by
    simp [wordLine, hfilled line hline]
  rw [← List.map_congr_left hlines]
  exact hsets

end Page

end TexTidy.Layout
