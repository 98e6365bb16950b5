import TexTidy.Layout.Render
import TexTidy.Print.Paragraph

/-!
# TexTidy.Proofs.Ink

The ink of a text is what is left of it without white space. Layout may move white space as it likes, but
it must not touch the ink:

* `ink_stripReversed`: removing blanks from the end of a line keeps the ink;
* `ink_render`: the text of a document has the ink of the document, on every page;
* `ink_paragraph`: a paragraph has the ink of the steps it takes.

The renderer threads a sheet through the document, so its lemmas say what one document adds to the sheet,
for every indentation, style and pending rest.
-/

namespace TexTidy

namespace Bytes

/-! ## the ink of a text -/

/-- A text without its white space. -/
def ink (s : Bytes) : Bytes :=
  s.filter fun b => !isBlank b

@[simp] theorem ink_nil : ink [] = [] := rfl

@[simp] theorem ink_append (s t : Bytes) : (s ++ t).ink = s.ink ++ t.ink :=
  List.filter_append ..

theorem ink_of_append {s t : Bytes} (h : ink (s ++ t) = []) : ink t = [] := by
  rw [ink_append] at h
  exact (List.append_eq_nil_iff.1 h).2

theorem ink_cons (b : UInt8) (s : Bytes) : ink (b :: s) = ink [b] ++ s.ink :=
  ink_append [b] s

@[simp] theorem ink_reverse (s : Bytes) : ink s.reverse = s.ink.reverse :=
  List.filter_reverse ..

theorem ink_eq_nil_iff {s : Bytes} : s.ink = [] ↔ ∀ b ∈ s, isBlank b = true := by
  simp [ink]

/-- Blanks have no ink. -/
theorem ink_of_blank {s : Bytes} (h : s.all isBlank = true) : s.ink = [] :=
  ink_eq_nil_iff.2 (List.all_eq_true.1 h)

theorem ink_cons_of_blank {b : UInt8} (h : isBlank b = true) (s : Bytes) : ink (b :: s) = s.ink := by
  rw [ink_cons, ink_of_blank (s := [b]) (by simp [h]), List.nil_append]

@[simp] theorem ink_space_cons (s : Bytes) : ink (Byte.space :: s) = s.ink :=
  ink_cons_of_blank (by decide) s

theorem isBlank_of_isPad {b : UInt8} (h : isPad b = true) : isBlank b = true := by
  simp only [isPad, isBlank, Bool.or_eq_true] at *
  rcases h with h | h <;> simp [h]

theorem isBlank_of_isLineBlank {b : UInt8} (h : isLineBlank b = true) : isBlank b = true := by
  simp only [isLineBlank, Bool.or_eq_true] at h
  rcases h with h | h
  · exact isBlank_of_isPad h
  · simp [isBlank, h]

/-- What is left behind a run of a class does not begin with a byte of the class. -/
theorem head?_dropWhile (p : UInt8 → Bool) (s : Bytes) : (s.dropWhile p).head?.any p = false := by
  have hhead := List.head?_dropWhile_not p s
  cases h : (s.dropWhile p).head? with
  | none => rfl
  | some b => simpa [h] using hhead

/-- The longest run of a class ends in front of something else. -/
theorem head?_of_takeWhile {p : UInt8 → Bool} {s t : Bytes} (h : s = s.takeWhile p ++ t) :
    t.head?.any p = false := by
  have hsplit : s.takeWhile p ++ s.dropWhile p = s.takeWhile p ++ t := by
    rw [List.takeWhile_append_dropWhile]
    exact h
  rw [← List.append_cancel_left hsplit]
  exact head?_dropWhile p s

/-- Blanks can be dropped from the front. -/
theorem ink_dropWhile {drop : UInt8 → Bool} (hdrop : ∀ b, drop b = true → isBlank b = true)
    (s : Bytes) : ink (s.dropWhile drop) = s.ink := by
  induction s with
  | nil => rfl
  | cons b s ih =>
    rw [List.dropWhile_cons]
    split
    · next hb => rw [ih, ink_cons_of_blank (hdrop b hb)]
    · rfl

/-- Blanks can be dropped from the end. -/
theorem ink_trimEnd {drop : UInt8 → Bool} (hdrop : ∀ b, drop b = true → isBlank b = true)
    (s : Bytes) : ink (s.trimEnd drop) = s.ink := by
  simp [trimEnd, ink_dropWhile hdrop]

theorem trimEnd_append {drop : UInt8 → Bool} (s : Bytes) {w : Bytes} (hw : ∀ b ∈ w, drop b = true) :
    trimEnd drop (s ++ w) = trimEnd drop s := by
  rw [trimEnd, trimEnd, List.reverse_append,
    List.dropWhile_append_of_pos fun b hb => hw b (List.mem_reverse.1 hb)]

/-- A byte that is not in the end of a text is in the rest of it. -/
theorem exists_of_append_eq {b : UInt8} {s w x pads : Bytes} (h : s ++ b :: w = x ++ pads)
    (hb : b ∉ pads) : ∃ kept, x = s ++ b :: kept ∧ w = kept ++ pads := by
  rcases List.append_eq_append_iff.1 h with ⟨mid, hx, hmid⟩ | ⟨mid, -, hmid⟩
  · cases mid with
    | nil => exact absurd (by rw [← show _ = pads from hmid]; simp) hb
    | cons a kept =>
      obtain ⟨rfl, hw⟩ := List.cons.inj hmid
      exact ⟨kept, hx, hw⟩
  · exact absurd (by simp [hmid]) hb

@[simp] theorem ink_spaces (n : Nat) : ink (spaces n) = [] := by
  refine ink_eq_nil_iff.2 fun b hb => ?_
  rw [List.eq_of_mem_replicate hb]
  rfl

end Bytes

/-! ## the ends of lines -/

namespace Text

/-- Removing blanks from the end of a line keeps the ink, whether a control space is there or not. -/
theorem ink_stripReversed {blank : UInt8 → Bool} (hblank : ∀ b, blank b = true → isBlank b = true)
    (rev : Bytes) : Bytes.ink (stripReversed blank rev) = Bytes.ink rev := by
  have hbody : Bytes.ink (rev.dropWhile blank) = Bytes.ink rev := Bytes.ink_dropWhile hblank rev
  unfold stripReversed
  dsimp only
  split
  · rfl
  · next b hb =>
    have hmem : blank b = true := by
      have := List.mem_of_getLast? hb
      exact List.all_eq_true.1 List.all_takeWhile b this
    split
    · rw [Bytes.ink_cons_of_blank (hblank b hmem), hbody]
    · exact hbody

theorem ink_stripEnd {blank : UInt8 → Bool} (hblank : ∀ b, blank b = true → isBlank b = true)
    (s : Bytes) : Bytes.ink (stripEnd blank s) = Bytes.ink s := by
  simp [stripEnd, ink_stripReversed hblank]

/-- What is removed from the end of a text is blank. -/
theorem exists_eq_append_stripReversed (blank : UInt8 → Bool) (rev : Bytes) :
    ∃ pads, rev = pads ++ stripReversed blank rev ∧ ∀ b ∈ pads, blank b = true := by
  have hsplit : rev = rev.takeWhile blank ++ rev.dropWhile blank := List.takeWhile_append_dropWhile.symm
  have hblank := List.all_eq_true.1 (List.all_takeWhile (p := blank) (l := rev))
  unfold stripReversed
  dsimp only
  split
  · exact ⟨[], rfl, by simp⟩
  · next b hlast =>
    split
    · -- The blank of a control space is the last one of the run, read from the end of the text.
      obtain ⟨pads, hpads⟩ := List.getLast?_eq_some_iff.1 hlast
      rw [hpads] at hsplit hblank
      exact ⟨pads, by simpa using hsplit, fun b hb => hblank b (by simp [hb])⟩
    · exact ⟨_, hsplit, hblank⟩

/-- What is stripped from the end of a text are blanks. -/
theorem exists_eq_stripEnd_append (blank : UInt8 → Bool) (s : Bytes) :
    ∃ pads, s = stripEnd blank s ++ pads ∧ ∀ p ∈ pads, blank p = true := by
  obtain ⟨pads, hpads, hblank⟩ := exists_eq_append_stripReversed blank s.reverse
  refine ⟨pads.reverse, ?_, fun p hp => hblank p (List.mem_reverse.1 hp)⟩
  rw [stripEnd, ← List.reverse_append, ← hpads, List.reverse_reverse]

/-- Stripping a text stops at a byte that is not blank. -/
theorem exists_stripEnd_append {blank : UInt8 → Bool} {b : UInt8} (hb : blank b = false) (s w : Bytes) :
    ∃ kept pads, stripEnd blank (s ++ b :: w) = s ++ b :: kept ∧ w = kept ++ pads ∧
      ∀ p ∈ pads, blank p = true := by
  obtain ⟨pads, hsplit, hblank⟩ := exists_eq_stripEnd_append blank (s ++ b :: w)
  obtain ⟨kept, hkept, hw⟩ := Bytes.exists_of_append_eq hsplit fun hin => by
    rw [hblank b hin] at hb
    cases hb
  exact ⟨kept, pads, hkept, hw, hblank⟩

/-- Only blanks are stripped. -/
theorem mem_stripEnd_iff {blank : UInt8 → Bool} {b : UInt8} (hb : blank b = false) {s : Bytes} :
    b ∈ stripEnd blank s ↔ b ∈ s := by
  obtain ⟨pads, hsplit, hblank⟩ := exists_eq_stripEnd_append blank s
  refine ⟨fun hmem => hsplit ▸ List.mem_append_left _ hmem, fun hmem => ?_⟩
  rw [hsplit, List.mem_append] at hmem
  refine hmem.resolve_right fun hin => ?_
  rw [hblank b hin] at hb
  cases hb

end Text

namespace Layout

/-! ## the ink of a document -/

namespace Doc

mutual

/-- The ink of the texts of a document, in order. -/
def ink : Doc → Bytes
  | .empty => []
  | .text s => s.ink
  | .line => []
  | .softLine => []
  | .hardLine => []
  | .concat parts => inkAll parts
  | .indent body => ink body
  | .group body => ink body
  | .fill parts => inkAll parts

/-- The ink of several documents, in order. -/
def inkAll : List Doc → Bytes
  | [] => []
  | d :: ds => ink d ++ inkAll ds

end

@[simp] theorem inkAll_append (ds es : List Doc) : inkAll (ds ++ es) = inkAll ds ++ inkAll es := by
  induction ds with
  | nil => rfl
  | cons d ds ih => simp [inkAll, ih]

end Doc

/-! ## rendering -/

namespace Sheet

/-- The ink on a sheet. -/
def ink (sheet : Sheet) : Bytes :=
  Bytes.ink sheet.written.reverse

@[simp] theorem ink_write (measure : Bytes → Nat) (s : Bytes) (sheet : Sheet) :
    (sheet.write measure s).ink = sheet.ink ++ s.ink := by
  simp [ink, write]

@[simp] theorem ink_writeSpace (sheet : Sheet) : sheet.writeSpace.ink = sheet.ink := by
  simp [ink, writeSpace]

@[simp] theorem ink_breakLine (indent : Nat) (sheet : Sheet) :
    (sheet.breakLine indent).ink = sheet.ink := by
  rw [ink, ink, breakLine, Bytes.ink_reverse, Bytes.ink_append, Bytes.ink_spaces,
    Bytes.ink_cons_of_blank (by decide), Text.ink_stripReversed fun _ => Bytes.isBlank_of_isPad,
    List.nil_append, Bytes.ink_reverse]

end Sheet

namespace Page

variable (page : Page)

mutual

/-- A document adds its ink to the sheet, wherever lines are broken. -/
theorem ink_renderDoc (indent : Nat) (style : Style) (pending : Pending) :
    ∀ (d : Doc) (sheet : Sheet),
      (page.renderDoc indent style pending d sheet).ink = sheet.ink ++ d.ink
  | .empty, sheet => by simp [renderDoc, Doc.ink]
  | .text s, sheet => by simp [renderDoc, Doc.ink]
  | .line, sheet => by
    rw [renderDoc]
    split <;> simp [Doc.ink]
  | .softLine, sheet => by
    rw [renderDoc]
    split <;> simp [Doc.ink]
  | .hardLine, sheet => by
    rw [renderDoc, Sheet.ink_breakLine]
    split <;> simp [Doc.ink, Sheet.ink]
  | .concat parts, sheet => by rw [renderDoc, ink_renderAll, Doc.ink]
  | .indent body, sheet => by rw [renderDoc, ink_renderDoc, Doc.ink]
  | .group body, sheet => by
    rw [renderDoc]
    split
    · rw [ink_renderDoc, Doc.ink]
    · rw [ink_renderDoc, Doc.ink]
      rfl
  | .fill parts, sheet => by rw [renderDoc, ink_renderFill, Doc.ink]

theorem ink_renderAll (indent : Nat) (style : Style) (pending : Pending) :
    ∀ (ds : List Doc) (sheet : Sheet),
      (page.renderAll indent style pending ds sheet).ink = sheet.ink ++ Doc.inkAll ds
  | [], sheet => by simp [renderAll, Doc.inkAll]
  | d :: ds, sheet => by rw [renderAll, ink_renderAll, ink_renderDoc, Doc.inkAll, List.append_assoc]

theorem ink_renderFill (indent : Nat) (style : Style) (pending : Pending) :
    ∀ (ds : List Doc) (sheet : Sheet),
      (page.renderFill indent style pending ds sheet).ink = sheet.ink ++ Doc.inkAll ds
  | [], sheet => by simp [renderFill, Doc.inkAll]
  | [content], sheet => by simp [renderFill, ink_renderDoc, Doc.inkAll]
  | [content, sep], sheet => by simp [renderFill, ink_renderDoc, Doc.inkAll]
  | content :: sep :: next :: more, sheet => by
    rw [renderFill, ink_renderFill, ink_renderDoc, ink_renderDoc]
    simp [Doc.inkAll]

end

/-- **Rendering keeps the ink**, on every page. -/
theorem ink_render (d : Doc) : (page.render d).ink = d.ink := by
  have hsheet : (page.renderDoc 0 .broken [] d .blank).ink = d.ink := by
    rw [ink_renderDoc]
    rfl
  rw [render, Text.ink_stripEnd fun _ => Bytes.isBlank_of_isPad]
  exact hsheet

end Page

end Layout

/-! ## paragraphs -/

namespace Print

open Layout (Doc)

theorem Separator.ink_doc (s : Separator) : s.doc.ink = [] := by
  cases s <;> rfl

/-- The ink that a step brings. -/
def Step.ink : Step → Bytes
  | .content d => d.ink
  | _ => []

/-- The ink that several steps bring, in order. -/
def inkOf (ss : List Step) : Bytes :=
  (ss.map Step.ink).flatten

@[simp] theorem inkOf_nil : inkOf [] = [] := rfl

@[simp] theorem inkOf_cons (s : Step) (ss : List Step) : inkOf (s :: ss) = s.ink ++ inkOf ss := rfl

@[simp] theorem inkOf_append (ss ts : List Step) : inkOf (ss ++ ts) = inkOf ss ++ inkOf ts := by
  simp [inkOf]

namespace Paragraph

/-- The ink of a paragraph under construction: what is finished, and what is being collected. -/
def ink (p : Paragraph) : Bytes :=
  Doc.inkAll p.done.reverse ++ Doc.inkAll p.item.reverse

theorem ink_settle (p : Paragraph) : p.settle.ink = p.ink := by
  unfold settle
  split
  · rfl
  · next s hgap => simp [ink, Doc.inkAll, Doc.ink, Separator.ink_doc]

theorem ink_addContent (p : Paragraph) (d : Doc) : (p.addContent d).ink = p.ink ++ d.ink := by
  rw [← ink_settle p]
  simp [addContent, ink, Doc.inkAll]

/-- One step adds its ink. -/
theorem ink_step (p : Paragraph) (s : Step) : (p.step s).ink = p.ink ++ s.ink := by
  cases s with
  | content d => exact ink_addContent p d
  | separator s => simp [step, addSeparator, ink, Step.ink]
  | unlessEmpty s =>
    rw [step]
    split <;> simp [addSeparator, ink, Step.ink]
  | ifOpen s =>
    rw [step]
    split <;> simp [addSeparator, ink, Step.ink]

theorem ink_steps (p : Paragraph) (ss : List Step) : (p.steps ss).ink = p.ink ++ inkOf ss := by
  induction ss generalizing p with
  | nil => simp [steps]
  | cons s ss ih =>
    have hstep : p.steps (s :: ss) = (p.step s).steps ss := rfl
    rw [hstep, ih, ink_step, inkOf_cons, List.append_assoc]

theorem ink_doc (p : Paragraph) : p.doc.ink = p.ink := by
  rw [← ink_settle p, doc, Doc.ink, fillParts, ink]
  split
  · next hempty => simp [List.isEmpty_iff.1 hempty, Doc.inkAll]
  · simp [Doc.inkAll, Doc.ink]

end Paragraph

/-- **A paragraph has the ink of its steps**, whatever becomes of the separators. -/
theorem ink_paragraph (ss : List Step) : (paragraph ss).ink = inkOf ss := by
  rw [paragraph, Paragraph.ink_doc, Paragraph.ink_steps]
  rfl

end Print

end TexTidy
