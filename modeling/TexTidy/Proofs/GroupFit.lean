import TexTidy.Proofs.Wrapping
import TexTidy.Text.Width

/-!
# TexTidy.Proofs.GroupFit

When a group is flat. A document without a forced line break takes the same columns wherever it is measured, so that
asking in advance whether it fits and counting while it is written agree:

* a document that is flat and fits is written on the line as it stands, with every group and every fill in it
  (`renderDoc_flat`);
* a group asks for what is pending behind it too, up to the end of the line (`fitsOn_group`).

Hence a group between two texts is flat exactly if the whole line fits.
-/

namespace TexTidy.Layout

/-! ## documents without forced line breaks -/

section Measure

variable {measure : Bytes → Nat}

/-- Nothing fits once the line is too long. -/
theorem fits_of_neg {strict : Bool} {room : Int} (hroom : room < 0) (pending : Pending) :
    fits measure strict pending room = false := by
  induction pending with
  | nil => simpa [fits] using hroom
  | cons p pending ih =>
    obtain ⟨style, docs⟩ := p
    cases docs with
    | nil => simpa [fits, spendAll] using ih
    | cons d ds => simp [fits, spendAll, hroom]

/-- Documents that take their columns leave the rest of the room to what is pending. -/
theorem Spends.fits_cons {ds : List Doc} (h : Spends measure ds) (strict : Bool) (pending : Pending) (room : Int) :
    fits measure strict ((.flat, ds) :: pending) room =
      fits measure strict pending (room - Doc.columnsAll measure ds) := by
  rcases h strict room with hleft | ⟨hlt, hended⟩
  · simp only [fits, hleft]
  · rw [fits, hended]
    exact (fits_of_neg (by omega) pending).symm

theorem fits_text {t : Bytes} (ht : t.hasNewline = false) (strict : Bool) (style : Style) (room : Int) :
    fits measure strict [(style, [.text t])] room = decide (measure t ≤ room) := by
  by_cases hroom : room < 0
  · rw [fits_of_neg hroom, eq_comm, decide_eq_false_iff_not]
    omega
  · simp [fits, spendAll, spend, hroom, ht]

mutual

/-- A document without forced line breaks has no newline on its line. -/
theorem Doc.newline_notMem_flat : ∀ d : Doc, d.hard = false → Byte.newline ∉ d.flat
  | .empty, _ => List.not_mem_nil
  | .text s, h => by simpa [Doc.hard, Bytes.hasNewline, Doc.flat] using h
  | .line, _ => by decide
  | .softLine, _ => List.not_mem_nil
  | .hardLine, _ => List.not_mem_nil
  | .concat parts, h => Doc.newline_notMem_flatAll parts h
  | .indent body, h => Doc.newline_notMem_flat body h
  | .group body, h => Doc.newline_notMem_flat body h
  | .fill parts, h => Doc.newline_notMem_flatAll parts h

theorem Doc.newline_notMem_flatAll : ∀ ds : List Doc, hardAny ds = false → Byte.newline ∉ flatAll ds
  | [], _ => List.not_mem_nil
  | d :: ds, h => by
    obtain ⟨hd, hds⟩ := Doc.hardAny_cons.1 h
    simp [Doc.newline_notMem_flat d hd, Doc.newline_notMem_flatAll ds hds]

end

end Measure

/-! ## writing on the line -/

namespace Sheet

/-- The sheet with a text of some columns more on its line. -/
def put (s : Bytes) (columns : Nat) (sheet : Sheet) : Sheet :=
  { sheet with written := s.reverse ++ sheet.written, column := sheet.column + columns }

variable {sheet : Sheet}

@[simp] theorem text_blank : blank.text = [] := rfl

@[simp] theorem text_put (s : Bytes) (k : Nat) (sheet : Sheet) : (sheet.put s k).text = sheet.text ++ s := by
  simp [text, put]

@[simp] theorem column_put (s : Bytes) (k : Nat) (sheet : Sheet) :
    (sheet.put s k).column = sheet.column + k := rfl

@[simp] theorem brokenFlat_put (s : Bytes) (k : Nat) (sheet : Sheet) :
    (sheet.put s k).brokenFlat = sheet.brokenFlat := rfl

@[simp] theorem put_nil (sheet : Sheet) : sheet.put [] 0 = sheet := rfl

@[simp] theorem put_put (s t : Bytes) (k m : Nat) (sheet : Sheet) :
    (sheet.put s k).put t m = sheet.put (s ++ t) (k + m) := by
  simp [put, Nat.add_assoc]

theorem write_eq_put {measure : Bytes → Nat} {s : Bytes} (h : s.hasNewline = false) (sheet : Sheet) :
    sheet.write measure s = sheet.put s (measure s) := by
  simp [write, put, h]

theorem writeSpace_eq_put (sheet : Sheet) : sheet.writeSpace = sheet.put [Byte.space] 1 := rfl

end Sheet

namespace Page

variable (page : Page)

/-- A document that fits passes every test of a fill that asks for a part of it. -/
theorem fitsOn_of_le {ds : List Doc} {sheet : Sheet} (hds : Doc.hardAny ds = false)
    (hfits : sheet.column + Doc.columnsAll page.measure ds ≤ page.width) (strict : Bool) :
    page.fitsOn strict [(.flat, ds)] sheet = true := by
  rw [fitsOn_eq (spendsAll_of_hard ds hds) strict (.inl (by omega))]
  exact decide_eq_true hfits

/- A fill measures its contents again while it is rendered, and a group in a flat part does so after a line was
broken there. Neither finds anything new as long as the whole part fits, so the sheet after each document is the
sheet before it with the document on its line. -/
mutual

/-- **A flat document that fits is written on the line**, and so are the groups and fills in it. -/
theorem renderDoc_flat (indent : Nat) (pending : Pending) : ∀ (d : Doc) (sheet : Sheet),
    d.hard = false → sheet.brokenFlat = false → sheet.column + d.columns page.measure ≤ page.width →
      page.renderDoc indent .flat pending d sheet = sheet.put d.flat (d.columns page.measure)
  | .empty, _, _, _, _ => rfl
  | .text s, sheet, hhard, _, _ => Sheet.write_eq_put hhard sheet
  | .line, _, _, _, _ => rfl
  | .softLine, _, _, _, _ => rfl
  | .hardLine, _, hhard, _, _ => by cases hhard
  | .concat parts, sheet, hhard, hflat, hfits => renderAll_flat indent pending parts sheet hhard hflat hfits
  | .indent body, sheet, hhard, hflat, hfits =>
    renderDoc_flat (indent + page.step) pending body sheet hhard hflat hfits
  | .group body, sheet, hhard, hflat, hfits => by
    have hsoft : body.hard = false := hhard
    have hbody := renderDoc_flat indent pending body sheet hhard hflat hfits
    simpa [renderDoc, hflat, hsoft, styleOf, Doc.flat, Doc.columns] using hbody
  | .fill parts, sheet, hhard, hflat, hfits =>
    renderFill_flat indent .flat pending parts sheet hhard hflat hfits

theorem renderAll_flat (indent : Nat) (pending : Pending) : ∀ (ds : List Doc) (sheet : Sheet),
    Doc.hardAny ds = false → sheet.brokenFlat = false →
      sheet.column + Doc.columnsAll page.measure ds ≤ page.width →
      page.renderAll indent .flat pending ds sheet = sheet.put (Doc.flatAll ds) (Doc.columnsAll page.measure ds)
  | [], _, _, _, _ => rfl
  | d :: ds, sheet, hhard, hflat, hfits => by
    obtain ⟨hd, hds⟩ := Doc.hardAny_cons.1 hhard
    rw [Doc.columnsAll_cons] at hfits
    have hhead := renderDoc_flat indent ((.flat, ds) :: pending) d sheet hd hflat (by omega)
    have htail := renderAll_flat indent pending ds (sheet.put d.flat (d.columns page.measure)) hds hflat
      (by simp only [Sheet.column_put]; omega)
    rw [renderAll, hhead, htail, Sheet.put_put, Doc.flatAll_cons, Doc.columnsAll_cons]

theorem renderFill_flat (indent : Nat) (style : Style) (pending : Pending) : ∀ (ds : List Doc) (sheet : Sheet),
    Doc.hardAny ds = false → sheet.brokenFlat = false →
      sheet.column + Doc.columnsAll page.measure ds ≤ page.width →
      page.renderFill indent style pending ds sheet =
        sheet.put (Doc.flatAll ds) (Doc.columnsAll page.measure ds)
  | [], _, _, _, _ => rfl
  | [content], sheet, hhard, hflat, hfits => by
    obtain ⟨hcontent, -⟩ := Doc.hardAny_cons.1 hhard
    have hfit := fitsOn_of_le page hhard hfits true
    simp only [Doc.columnsAll_cons, Doc.columnsAll_nil, Nat.add_zero] at hfits
    simp only [renderFill, hfit, styleOf, if_true, Doc.flatAll_cons, Doc.flatAll_nil, Doc.columnsAll_cons,
      Doc.columnsAll_nil, List.append_nil, Nat.add_zero]
    exact renderDoc_flat indent pending content sheet hcontent hflat hfits
  | [content, sep], sheet, hhard, hflat, hfits => by
    obtain ⟨hcontent, hrest⟩ := Doc.hardAny_cons.1 hhard
    obtain ⟨hsep, -⟩ := Doc.hardAny_cons.1 hrest
    simp only [Doc.columnsAll_cons, Doc.columnsAll_nil, Nat.add_zero] at hfits
    have hfit : page.fitsOn true [(.flat, [content])] sheet = true :=
      fitsOn_of_le page (by simp [Doc.hardAny, hcontent]) (by simp; omega) true
    have hfirst := renderDoc_flat indent ((.flat, [sep]) :: pending) content sheet hcontent hflat (by omega)
    have hsecond := renderDoc_flat indent pending sep (sheet.put content.flat (content.columns page.measure)) hsep
      hflat (by simp only [Sheet.column_put]; omega)
    simp [renderFill, hfit, styleOf, hfirst, hsecond]
  | content :: sep :: next :: more, sheet, hhard, hflat, hfits => by
    obtain ⟨hcontent, hrest⟩ := Doc.hardAny_cons.1 hhard
    obtain ⟨hsep, hrest⟩ := Doc.hardAny_cons.1 hrest
    obtain ⟨hnext, -⟩ := Doc.hardAny_cons.1 hrest
    simp only [Doc.columnsAll_cons] at hfits
    have hpair : page.fitsOn true [(.flat, [content, sep, next])] sheet = true :=
      fitsOn_of_le page (by simp [Doc.hardAny, hcontent, hsep, hnext]) (by simp; omega) true
    have hfirst := renderDoc_flat indent ((.flat, [sep]) :: (style, next :: more) :: pending) content sheet hcontent
      hflat (by omega)
    have hsecond := renderDoc_flat indent ((style, next :: more) :: pending) sep
      (sheet.put content.flat (content.columns page.measure)) hsep hflat (by simp only [Sheet.column_put]; omega)
    have hothers := renderFill_flat indent style pending (next :: more)
      (sheet.put (content.flat ++ sep.flat) (content.columns page.measure + sep.columns page.measure)) hrest hflat
      (by simp only [Sheet.column_put, Doc.columnsAll_cons]; omega)
    simp [renderFill, hpair, styleOf, hfirst, hsecond, hothers, Nat.add_assoc]

end

/-! ## a group between two texts -/

theorem render_eq_stripEnd (d : Doc) :
    page.render d = Text.stripEnd isPad (page.renderDoc 0 .broken [] d .blank).text :=
  rfl

/-- A group fits if its columns and those of the text behind it are left on the line. -/
theorem fitsOn_group {d : Doc} {t : Bytes} (hd : d.hard = false) (ht : t.hasNewline = false) {sheet : Sheet}
    (hcounts : page.Counts sheet.column) :
    page.fitsOn false [(.flat, [d]), (.broken, [.text t])] sheet =
      decide (sheet.column + d.columns page.measure + page.measure t ≤ page.width) := by
  rw [fitsOn, columnsLeft_eq hcounts, (spends_of_hard d hd).fits_cons, fits_text ht, Doc.columnsAll_cons,
    Doc.columnsAll_nil, decide_eq_decide]
  omega

/-- The group is rendered in the style that its test gives, and the text behind it is written. -/
theorem text_renderDoc_group {p t : Bytes} {d : Doc} (hp : p.hasNewline = false) (ht : t.hasNewline = false)
    (hd : d.hard = false) (hcounts : page.Counts (page.measure p)) :
    (page.renderDoc 0 .broken [] (.concat [.text p, .group d, .text t]) .blank).text =
      (page.renderDoc 0 (styleOf (decide (page.measure p + d.columns page.measure + page.measure t ≤ page.width)))
        [(.broken, [.text t])] d (Sheet.blank.put p (page.measure p))).text ++ t := by
  have hcolumn : (Sheet.blank.put p (page.measure p)).column = page.measure p := Nat.zero_add _
  have hfits := page.fitsOn_group hd ht (hcolumn.symm ▸ hcounts)
  have hsheet : { Sheet.blank.put p (page.measure p) with brokenFlat := false } =
      Sheet.blank.put p (page.measure p) := rfl
  rw [hcolumn] at hfits
  simp [renderDoc, renderAll, Sheet.write_eq_put hp, hd, hfits, -Sheet.column_put, hsheet]

/-- A group that holds a group and a fill. -/
def nestedGroup : Doc :=
  .concat [.text (bytes "aa"), .line, .group (.concat [.text (bytes "b"), .softLine, .text (bytes "c")]), .line,
    .fill [.text (bytes "d"), .line, .text (bytes "e")]]

end Page

end TexTidy.Layout
