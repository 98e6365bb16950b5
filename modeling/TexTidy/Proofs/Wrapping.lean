import TexTidy.Proofs.Columns

/-!
# TexTidy.Proofs.Wrapping

How the renderer wraps lines. Two classes of documents cover what the printer makes of words, commands and
environments. *Neat* documents hold no line break of their own; the only places where they may break are the
separators of fills. A *body* is a fill of neat items and of blocks, which stand on lines of their own.

A document without forced line breaks takes its columns, and it fits if there are that many (`spends_of_hard`).
A neat document that fits on the line stays on it (`Neat.adds`). One that does not fit leaves a loose line
behind (`Neat.isLoose`), because a nested fill does not count what comes after it. In a body nothing comes
after an item but a separator that was counted, so there all lines are kept (`Body.isKept`).
-/

namespace TexTidy.Layout

/-! ## documents on one line -/

namespace Doc

mutual

/-- A document on one line. -/
def flat : Doc → Bytes
  | .empty | .softLine | .hardLine => []
  | .text s => s
  | .line => [Byte.space]
  | .concat parts | .fill parts => flatAll parts
  | .indent body | .group body => flat body

/-- Documents on one line. -/
def flatAll : List Doc → Bytes
  | [] => []
  | d :: ds => flat d ++ flatAll ds

end

mutual

/-- The columns of a document on one line. -/
def columns (measure : Bytes → Nat) : Doc → Nat
  | .empty | .softLine | .hardLine => 0
  | .text s => measure s
  | .line => 1
  | .concat parts | .fill parts => columnsAll measure parts
  | .indent body | .group body => columns measure body

/-- The columns of documents on one line. -/
def columnsAll (measure : Bytes → Nat) : List Doc → Nat
  | [] => 0
  | d :: ds => columns measure d + columnsAll measure ds

end

variable {measure : Bytes → Nat}

@[simp] theorem flatAll_nil : flatAll [] = [] := rfl

@[simp] theorem flatAll_cons (d : Doc) (ds : List Doc) : flatAll (d :: ds) = d.flat ++ flatAll ds := rfl

@[simp] theorem columnsAll_nil : columnsAll measure [] = 0 := rfl

@[simp] theorem columnsAll_cons (d : Doc) (ds : List Doc) :
    columnsAll measure (d :: ds) = d.columns measure + columnsAll measure ds := rfl

theorem columnsAll_append (ds es : List Doc) :
    columnsAll measure (ds ++ es) = columnsAll measure ds + columnsAll measure es := by
  induction ds with
  | nil => simp
  | cons d ds ih => simp [ih, Nat.add_assoc]

end Doc

/-! ## neat documents -/

/-- A separator that may stay on the line. -/
inductive Joint (spaced : Bool) : Doc → Prop
  | softLine : Joint spaced .softLine
  | line (allowed : spaced = true) : Joint spaced .line

/-- How documents follow each other. -/
inductive Row where
  /-- There is only one. -/
  | item
  /-- One after the other. -/
  | items
  /-- As the contents and separators of a fill. -/
  | parts

/-- Documents without line breaks of their own. With `spaced`, their fills may hold spaces. -/
inductive Neat (spaced : Bool) : Row → List Doc → Prop
  | text {s : Bytes} (solid : s.isSolid = true) : Neat spaced .item [.text s]
  | concat {ds : List Doc} (items : Neat spaced .items ds) : Neat spaced .item [.concat ds]
  | indent {d : Doc} (body : Neat spaced .item [d]) : Neat spaced .item [.indent d]
  | fill {ps : List Doc} (parts : Neat spaced .parts ps) : Neat spaced .item [.fill ps]
  | nil : Neat spaced .items []
  | cons {d : Doc} {ds : List Doc} (head : Neat spaced .item [d]) (tail : Neat spaced .items ds) :
      Neat spaced .items (d :: ds)
  | none : Neat spaced .parts []
  | last {c : Doc} (content : Neat spaced .item [c]) : Neat spaced .parts [c]
  | part {c sep : Doc} {ps : List Doc} (content : Neat spaced .item [c]) (joint : Joint spaced sep)
      (rest : Neat spaced .parts ps) : Neat spaced .parts (c :: sep :: ps)

theorem Neat.content {spaced : Bool} {c : Doc} {ps : List Doc} (h : Neat spaced .parts (c :: ps)) :
    Neat spaced .item [c] := by
  cases h with
  | last content => exact content
  | part content _ _ => exact content

/-! ## what fits -/

section Fits

variable {measure : Bytes → Nat} {spaced : Bool}

/-- Documents take their columns from the room of a line, as long as there is room. -/
def Spends (measure : Bytes → Nat) (ds : List Doc) : Prop :=
  ∀ strict room, spendAll measure strict .flat ds room = .left (room - Doc.columnsAll measure ds) ∨
    room < Doc.columnsAll measure ds ∧ spendAll measure strict .flat ds room = .ended false

theorem spends_nil : Spends measure [] :=
  fun _ room => .inl (by simp [spendAll])

theorem spendAll_singleton (strict : Bool) (d : Doc) {room : Int} (hroom : 0 ≤ room) :
    spendAll measure strict .flat [d] room = spend measure strict .flat d room := by
  rw [spendAll, if_neg (by omega)]
  cases spend measure strict .flat d room with
  | left _ => rfl
  | ended _ => rfl

theorem spendAll_append (strict : Bool) (ds es : List Doc) (room : Int) :
    spendAll measure strict .flat (ds ++ es) room =
      match spendAll measure strict .flat ds room with
      | .ended fits => .ended fits
      | .left room => spendAll measure strict .flat es room := by
  induction ds generalizing room with
  | nil => rfl
  | cons d ds ih =>
    rw [List.cons_append, spendAll, spendAll]
    split
    · rfl
    · cases spend measure strict .flat d room with
      | left room => exact ih room
      | ended _ => rfl

theorem Spends.append {ds es : List Doc} (hds : Spends measure ds) (hes : Spends measure es) :
    Spends measure (ds ++ es) := by
  intro strict room
  rw [spendAll_append, Doc.columnsAll_append]
  rcases hds strict room with hleft | ⟨hlt, hended⟩
  · rw [hleft]
    dsimp only
    rcases hes strict (room - Doc.columnsAll measure ds) with hleft | ⟨hlt, hended⟩
    · exact .inl (by rw [hleft]; congr 1; omega)
    · exact .inr ⟨by omega, hended⟩
  · exact .inr ⟨by omega, by rw [hended]⟩

/-- A document takes its columns if it takes them wherever there is room. -/
theorem spends_singleton {d : Doc}
    (h : ∀ strict room, 0 ≤ room → spend measure strict .flat d room = .left (room - d.columns measure) ∨
      room < d.columns measure ∧ spend measure strict .flat d room = .ended false) :
    Spends measure [d] := by
  intro strict room
  simp only [Doc.columnsAll_cons, Doc.columnsAll_nil, Nat.add_zero]
  by_cases hroom : 0 ≤ room
  · rw [spendAll_singleton strict d hroom]
    exact h strict room hroom
  · exact .inr ⟨by omega, by rw [spendAll, if_pos (by omega)]⟩

theorem Doc.hardAny_cons {d : Doc} {ds : List Doc} :
    hardAny (d :: ds) = false ↔ d.hard = false ∧ hardAny ds = false := by
  simp [hardAny]

mutual

/-- **A document without forced line breaks takes its columns**, whether its groups have to be flat or not. -/
theorem spends_of_hard : ∀ d : Doc, d.hard = false → Spends measure [d]
  | .empty, _ => spends_singleton fun _ room _ => .inl (by simp [spend, Doc.columns])
  | .text s, h => by
    have hnewline : s.hasNewline = false := h
    exact spends_singleton fun _ room _ => .inl (by simp [spend, Doc.columns, hnewline])
  | .line, _ => spends_singleton fun _ room _ => .inl (by simp [spend, Doc.columns])
  | .softLine, _ => spends_singleton fun _ room _ => .inl (by simp [spend, Doc.columns])
  | .hardLine, h => by cases h
  | .concat parts, h => spends_singleton fun strict room _ => spendsAll_of_hard parts h strict room
  | .fill parts, h => spends_singleton fun strict room _ => spendsAll_of_hard parts h strict room
  | .indent body, h => by
    refine spends_singleton fun strict room hroom => ?_
    have hbody := spends_of_hard body h strict room
    simpa [spendAll_singleton strict body hroom, spend, Doc.columns] using hbody
  | .group body, h => by
    refine spends_singleton fun strict room hroom => ?_
    have hsoft : body.hard = false := h
    have hbody := spends_of_hard body h strict room
    simpa [spendAll_singleton strict body hroom, spend, Doc.columns, hsoft] using hbody

theorem spendsAll_of_hard : ∀ ds : List Doc, Doc.hardAny ds = false → Spends measure ds
  | [], _ => spends_nil
  | d :: ds, h => by
    obtain ⟨hd, hds⟩ := Doc.hardAny_cons.1 h
    exact (spends_of_hard d hd).append (spendsAll_of_hard ds hds)

end

theorem Joint.hard {sep : Doc} (h : Joint spaced sep) : sep.hard = false := by
  cases h <;> rfl

/-- Neat documents have no line breaks of their own. -/
theorem Neat.hardAny {row : Row} {ds : List Doc} (h : Neat spaced row ds) : Doc.hardAny ds = false := by
  induction h with
  | text solid =>
    simpa [Doc.hardAny, Doc.hard, Bytes.hasNewline] using Bytes.newline_notMem_of_isSolid solid
  | concat _ ih | fill _ ih => simpa [Doc.hardAny, Doc.hard] using ih
  | indent _ ih => simpa [Doc.hardAny, Doc.hard] using ih
  | nil | none => rfl
  | cons _ _ ihhead ihtail => exact Doc.hardAny_cons.2 ⟨(Doc.hardAny_cons.1 ihhead).1, ihtail⟩
  | last _ ih => exact ih
  | part _ joint _ ihcontent ih =>
    exact Doc.hardAny_cons.2 ⟨(Doc.hardAny_cons.1 ihcontent).1, Doc.hardAny_cons.2 ⟨joint.hard, ih⟩⟩

theorem Joint.spends {sep : Doc} (h : Joint spaced sep) : Spends measure [sep] :=
  spends_of_hard sep h.hard

/-- **Neat documents take their columns.** -/
theorem Neat.spends {row : Row} {ds : List Doc} (h : Neat spaced row ds) : Spends measure ds :=
  spendsAll_of_hard ds h.hardAny

/-- Documents that take their columns fit if there are that many. -/
theorem Spends.fits_eq {ds : List Doc} (h : Spends measure ds) (strict : Bool) (room : Int) :
    fits measure strict [(.flat, ds)] room = decide (Doc.columnsAll measure ds ≤ room) := by
  rcases h strict room with hleft | ⟨hlt, hended⟩
  · simp [fits, hleft]
  · simp [fits, hended, hlt]

end Fits

/-! ## neat documents on a page -/

namespace Page

variable {page : Page} {spaced : Bool} {sheet : Sheet}

/-- Renders documents that follow each other in some way. -/
def renderRow (page : Page) (indent : Nat) (style : Style) (pending : Pending) :
    Row → List Doc → Sheet → Sheet
  | .item, [d] => page.renderDoc indent style pending d
  | .item, _ => id
  | .items, ds => page.renderAll indent style pending ds
  | .parts, ds => page.renderFill indent style pending ds

/-- The sheet `after` has a text of some columns more on its line than the sheet `before`. -/
def Adds (page : Page) (spaced : Bool) (s : Bytes) (k : Nat) (before after : Sheet) : Prop :=
  after.column = before.column + k ∧ ∀ line, At page spaced before line → At page spaced after (line ++ s)

theorem adds_nil (sheet : Sheet) : Adds page spaced [] 0 sheet sheet :=
  ⟨rfl, fun line h => by rwa [List.append_nil]⟩

theorem Adds.trans {s t : Bytes} {k m : Nat} {a b c : Sheet} (hs : Adds page spaced s k a b)
    (ht : Adds page spaced t m b c) : Adds page spaced (s ++ t) (k + m) a c := by
  refine ⟨by rw [ht.1, hs.1, Nat.add_assoc], fun line h => ?_⟩
  rw [← List.append_assoc]
  exact ht.2 _ (hs.2 line h)

theorem adds_write {s : Bytes} (hs : s.isSolid = true) (sheet : Sheet) :
    Adds page spaced s (page.measure s) sheet (sheet.write page.measure s) := by
  have hnewline : s.hasNewline = false := by
    simpa [Bytes.hasNewline] using Bytes.newline_notMem_of_isSolid hs
  exact ⟨by simp [Sheet.write, hnewline], fun line h => h.write hs⟩

/-- A separator in the flat style stays on the line. -/
theorem adds_joint {sep : Doc} {b : Bool} (h : Joint b sep) (indent : Nat) (pending : Pending) (sheet : Sheet) :
    Adds page spaced sep.flat (sep.columns page.measure) sheet
      (page.renderDoc indent .flat pending sep sheet) := by
  cases h with
  | softLine => exact adds_nil sheet
  | line => exact ⟨rfl, fun line h => h.writeSpace⟩

theorem renderDoc_joint {sep : Doc} {b : Bool} (h : Joint b sep) (indent : Nat) (pending : Pending)
    (sheet : Sheet) : page.renderDoc indent .broken pending sep sheet = sheet.breakLine indent := by
  cases h <;> rfl

/-- What is left of a line behind a column can be counted in 64 bits. -/
def Counts (page : Page) (column : Nat) : Prop :=
  0 ≤ page.width ∨ leastWidth + column ≤ page.width

instance (page : Page) (column : Nat) : Decidable (page.Counts column) :=
  inferInstanceAs (Decidable (_ ∨ _))

theorem columnsLeft_eq {column : Nat} (h : page.Counts column) : page.columnsLeft column = page.width - column := by
  have hcounts : ¬(page.width < 0 ∧ page.width - column < leastWidth) := by
    unfold Counts at h
    omega
  rw [columnsLeft, if_neg hcounts]

theorem fitsOn_eq {ds : List Doc} (h : Spends page.measure ds) (strict : Bool) {sheet : Sheet}
    (hcounts : page.Counts sheet.column) :
    page.fitsOn strict [(.flat, ds)] sheet =
      decide (sheet.column + Doc.columnsAll page.measure ds ≤ page.width) := by
  rw [fitsOn, columnsLeft_eq hcounts, h.fits_eq]
  congr 1
  exact propext (by omega)

/-- What has to fit for the separator between a content and the parts after it to be flat. -/
def pair (content sep : Doc) : List Doc → List Doc
  | [] => [content]
  | next :: _ => [content, sep, next]

/-- A fill renders its first content, the separator after it and then the rest. -/
theorem renderFill_cons (page : Page) (indent : Nat) (style : Style) (pending : Pending) (c sep : Doc)
    (ps : List Doc) (sheet : Sheet) :
    ∃ contentStyle inner outer, page.renderFill indent style pending (c :: sep :: ps) sheet =
      page.renderFill indent style pending ps
        (page.renderDoc indent (styleOf (page.fitsOn true [(.flat, pair c sep ps)] sheet)) outer sep
          (page.renderDoc indent contentStyle inner c sheet)) := by
  cases ps with
  | nil => exact ⟨_, _, _, rfl⟩
  | cons next more => exact ⟨_, _, _, rfl⟩

/-- The sheet is at a loose line. -/
def IsLoose (page : Page) (spaced : Bool) (sheet : Sheet) : Prop :=
  ∃ line, At page spaced sheet line ∧ Loose page spaced line

/-- The sheet is at a line that is kept. -/
def IsKept (page : Page) (spaced : Bool) (sheet : Sheet) : Prop :=
  ∃ line, At page spaced sheet line ∧ Kept page spaced line

theorem IsLoose.isKept (h : IsLoose page spaced sheet) : IsKept page spaced sheet := by
  obtain ⟨line, hat, hloose⟩ := h
  exact ⟨line, hat, .loose hloose⟩

theorem IsLoose.write (h : IsLoose page spaced sheet) {s : Bytes} (hs : s.isSolid = true) :
    IsLoose page spaced (sheet.write page.measure s) := by
  obtain ⟨line, hat, hloose⟩ := h
  exact ⟨line ++ s, hat.write hs, hloose.append hs⟩

theorem IsKept.breakLine (h : IsKept page spaced sheet) (indent : Nat) :
    IsLoose page spaced (sheet.breakLine indent) := by
  obtain ⟨line, hat, hkept⟩ := h
  exact ⟨Bytes.spaces indent, hat.breakLine hkept indent, loose_spaces indent⟩

theorem At.isKept {line : Bytes} (h : At page spaced sheet line) (hfits : sheet.column ≤ page.width) :
    IsKept page spaced sheet :=
  ⟨line, h, .within h.1 hfits⟩

/-- Behind what is within the page, a space can be written without asking. -/
theorem At.isLoose_writeSpace {line : Bytes} (h : At page spaced sheet line) (hspaced : spaced = true)
    (hfits : sheet.column ≤ page.width) : IsLoose page spaced sheet.writeSpace :=
  ⟨line ++ [Byte.space], h.writeSpace, .front hspaced h.1 hfits Bytes.isSolid_nil⟩

end Page

section Render

open Page

variable {page : Page} {spaced : Bool}

theorem Neat.spends_pair {c sep : Doc} {ps : List Doc} (hc : Neat spaced .item [c])
    (hsep : Joint spaced sep) (hps : Neat spaced .parts ps) : Spends page.measure (pair c sep ps) := by
  cases ps with
  | nil => exact hc.spends
  | cons next more => exact hc.spends.append (hsep.spends.append hps.content.spends)

theorem columnsAll_pair_le (page : Page) (c sep : Doc) (ps : List Doc) :
    Doc.columnsAll page.measure (pair c sep ps) ≤ Doc.columnsAll page.measure (c :: sep :: ps) := by
  cases ps <;> simp [pair]

theorem le_columnsAll_pair (page : Page) (c sep : Doc) (ps : List Doc) :
    c.columns page.measure ≤ Doc.columnsAll page.measure (pair c sep ps) := by
  cases ps <;> simp [pair]

/-- **Neat documents that fit stay on the line.** -/
theorem Neat.adds {row : Row} {ds : List Doc} (h : Neat spaced row ds) (indent : Nat) (style : Style)
    (pending : Pending) (sheet : Sheet)
    (hfits : sheet.column + Doc.columnsAll page.measure ds ≤ page.width) :
    Adds page spaced (Doc.flatAll ds) (Doc.columnsAll page.measure ds) sheet
      (page.renderRow indent style pending row ds sheet) := by
  induction h generalizing indent style pending sheet with
  | @text s solid =>
    rw [Doc.flatAll_cons, Doc.flatAll_nil, List.append_nil]
    exact adds_write solid sheet
  | concat _ ih =>
    simp only [Doc.columnsAll_cons, Doc.columnsAll_nil, Nat.add_zero] at hfits
    rw [Doc.flatAll_cons, Doc.flatAll_nil, List.append_nil]
    exact ih indent style pending sheet hfits
  | fill _ ih =>
    simp only [Doc.columnsAll_cons, Doc.columnsAll_nil, Nat.add_zero] at hfits
    rw [Doc.flatAll_cons, Doc.flatAll_nil, List.append_nil]
    exact ih indent style pending sheet hfits
  | indent _ ih => exact ih (indent + page.step) style pending sheet hfits
  | nil => exact adds_nil sheet
  | @cons d ds _ _ ihhead ihtail =>
    simp only [Doc.columnsAll_cons, Doc.columnsAll_nil, Doc.flatAll_cons, Doc.flatAll_nil, List.append_nil,
      Nat.add_zero] at hfits ihhead ⊢
    have hhead := ihhead indent style ((style, ds) :: pending) sheet (by omega)
    refine hhead.trans (ihtail indent style pending _ ?_)
    rw [hhead.1]
    omega
  | none => exact adds_nil sheet
  | last content ih => exact ih indent _ pending sheet hfits
  | @part c sep ps content joint rest ihcontent ih =>
    simp only [Doc.columnsAll_cons, Doc.columnsAll_nil, Doc.flatAll_cons, Doc.flatAll_nil, List.append_nil,
      Nat.add_zero] at hfits ihcontent ⊢
    have hpair : page.fitsOn true [(.flat, pair c sep ps)] sheet = true := by
      rw [fitsOn_eq (content.spends_pair joint rest) true (.inl (by omega)), decide_eq_true_iff]
      have hle := columnsAll_pair_le page c sep ps
      simp only [Doc.columnsAll_cons] at hle
      omega
    obtain ⟨contentStyle, inner, outer, hfill⟩ :=
      page.renderFill_cons indent style pending c sep ps sheet
    rw [renderRow, hfill, hpair]
    have hcontent := ihcontent indent contentStyle inner sheet (by omega)
    have hsep := hcontent.trans (adds_joint joint indent outer _)
    rw [← List.append_assoc, ← Nat.add_assoc]
    refine hsep.trans (ih indent style pending _ ?_)
    rw [hsep.1]
    omega

/-- **Neat documents leave a loose line behind**, whether they fit or not. -/
theorem Neat.isLoose (hwidth : 0 ≤ page.width) {row : Row} {ds : List Doc} (h : Neat spaced row ds) (indent : Nat)
    (style : Style) (pending : Pending) {sheet : Sheet} (hsheet : IsLoose page spaced sheet) :
    IsLoose page spaced (page.renderRow indent style pending row ds sheet) := by
  induction h generalizing indent style pending sheet with
  | text solid => exact hsheet.write solid
  | concat _ ih => exact ih indent style pending hsheet
  | fill _ ih => exact ih indent style pending hsheet
  | indent _ ih => exact ih (indent + page.step) style pending hsheet
  | nil => exact hsheet
  | cons _ _ ihhead ihtail => exact ihtail indent style pending (ihhead indent style _ hsheet)
  | none => exact hsheet
  | last _ ih => exact ih indent _ pending hsheet
  | @part c sep ps content joint rest ihcontent ih =>
    obtain ⟨contentStyle, inner, outer, hfill⟩ :=
      page.renderFill_cons indent style pending c sep ps sheet
    rw [renderRow, hfill]
    refine ih indent style pending ?_
    have hcontent : IsLoose page spaced (page.renderDoc indent contentStyle inner c sheet) :=
      ihcontent indent contentStyle inner hsheet
    cases hfits : page.fitsOn true [(.flat, pair c sep ps)] sheet with
    | false =>
      rw [styleOf, if_neg Bool.false_ne_true, renderDoc_joint joint]
      exact hcontent.isKept.breakLine indent
    | true =>
      cases joint with
      | softLine => exact hcontent
      | line hspaced =>
        -- the content alone fits, so that its end is within the page
        rw [fitsOn_eq (content.spends_pair (.line hspaced) rest) true (.inl hwidth), decide_eq_true_iff] at hfits
        have hle := le_columnsAll_pair page c .line ps
        obtain ⟨line, hat, _⟩ := hsheet
        have hadds : Adds page spaced _ _ sheet (page.renderDoc indent contentStyle inner c sheet) :=
          content.adds indent contentStyle inner sheet (by simp; omega)
        refine (hadds.2 line hat).isLoose_writeSpace hspaced ?_
        rw [hadds.1]
        simp
        omega

end Render

/-! ## bodies -/

/-- A separator that breaks the line. -/
inductive Break : Doc → Prop
  | line : Break .hardLine
  | paragraph : Break (.concat [.hardLine, .hardLine])

/-- What a body is made of. -/
inductive Part where
  /-- A content of its fill. -/
  | piece
  /-- The parts of its fill. -/
  | parts

/-- Bodies: fills whose contents are neat items and blocks. Before and after a block the line is broken. -/
inductive Body (spaced : Bool) : Part → List Doc → Prop
  | item {c : Doc} (neat : Neat spaced .item [c]) : Body spaced .piece [c]
  | hollow {o : Doc} {s : Bytes} (opening : Neat spaced .item [o]) (closing : s.isSolid = true) :
      Body spaced .piece [.concat [.concat [o, .hardLine, .text s]]]
  | block {o : Doc} {ps : List Doc} {s : Bytes} (opening : Neat spaced .item [o])
      (body : Body spaced .parts ps) (closing : s.isSolid = true) :
      Body spaced .piece
        [.concat [.concat [o, .indent (.concat [.hardLine, .fill ps]), .hardLine, .text s]]]
  | nil : Body spaced .parts []
  | last {c : Doc} (content : Body spaced .piece [c]) : Body spaced .parts [c]
  | joined {c sep n : Doc} {ps : List Doc} (content : Neat spaced .item [c]) (joint : Joint true sep)
      (next : Neat spaced .item [n]) (rest : Body spaced .parts (n :: ps)) :
      Body spaced .parts (c :: sep :: n :: ps)
  | broken {c sep : Doc} {ps : List Doc} (content : Body spaced .piece [c]) (sep_break : Break sep)
      (rest : Body spaced .parts ps) : Body spaced .parts (c :: sep :: ps)

section Render

open Page

variable {page : Page} {spaced : Bool} {sheet : Sheet}

theorem Page.IsKept.hardLine (h : IsKept page spaced sheet) (indent : Nat) (style : Style) (pending : Pending) :
    IsLoose page spaced (page.renderDoc indent style pending .hardLine sheet) := by
  have hflat : IsKept page spaced { sheet with brokenFlat := true } := h
  rw [renderDoc]
  split
  · exact hflat.breakLine indent
  · exact h.breakLine indent

theorem Break.isLoose {sep : Doc} (h : Break sep) (indent : Nat) (style : Style) (pending : Pending)
    (hsheet : IsKept page spaced sheet) :
    IsLoose page spaced (page.renderDoc indent style pending sep sheet) := by
  cases h with
  | line => exact hsheet.hardLine indent style pending
  | paragraph =>
    have hfirst := hsheet.hardLine indent style ((style, [.hardLine]) :: pending)
    exact hfirst.isKept.hardLine indent style ((style, []) :: pending)

/-- A content can be rendered: the sheet is at a loose line, or the content fits. -/
def Starts (page : Page) (spaced : Bool) (sheet : Sheet) (c : Doc) : Prop :=
  IsLoose page spaced sheet ∨
    Neat spaced .item [c] ∧ sheet.column + c.columns page.measure ≤ page.width

/-- What rendering the parts of a body does to the lines of a sheet. -/
def Part.Renders (page : Page) (spaced : Bool) : Part → List Doc → Prop
  | .piece, ds => ∀ indent style pending sheet, IsLoose page spaced sheet →
      IsLoose page spaced (page.renderRow indent style pending .item ds sheet)
  | .parts, ds => ∀ indent style pending sheet, IsKept page spaced sheet →
      (∀ c, ds.head? = some c → Starts page spaced sheet c) →
      IsKept page spaced (page.renderFill indent style pending ds sheet)

/-- A content that fits is within the page. -/
theorem Neat.isKept {c : Doc} (h : Neat spaced .item [c]) (indent : Nat) (style : Style) (pending : Pending)
    (hfits : sheet.column + c.columns page.measure ≤ page.width) (hsheet : IsKept page spaced sheet) :
    IsKept page spaced (page.renderDoc indent style pending c sheet) := by
  obtain ⟨line, hat, _⟩ := hsheet
  have hadds : Adds page spaced _ _ sheet (page.renderDoc indent style pending c sheet) :=
    h.adds indent style pending sheet (by simpa using hfits)
  refine (hadds.2 line hat).isKept ?_
  rw [hadds.1]
  simpa using hfits

theorem Starts.isKept {c : Doc} (h : Starts page spaced sheet c) (hsheet : IsKept page spaced sheet)
    (hc : Part.Renders page spaced .piece [c]) (indent : Nat) (style : Style) (pending : Pending) :
    IsKept page spaced (page.renderDoc indent style pending c sheet) := by
  rcases h with hloose | ⟨hneat, hfits⟩
  · exact (hc indent style pending sheet hloose).isKept
  · exact hneat.isKept indent style pending hfits hsheet

/-- Behind a separator that is flat the next content fits. -/
theorem starts_next (hwidth : 0 ≤ page.width) {c sep n : Doc} (hc : Neat spaced .item [c]) (hsep : Joint true sep)
    (hn : Neat spaced .item [n]) (ps : List Doc) (indent : Nat) (style : Style) (inner outer : Pending)
    (hsheet : IsKept page spaced sheet)
    (hfits : page.fitsOn true [(.flat, pair c sep (n :: ps))] sheet = true) :
    let after := page.renderDoc indent .flat outer sep (page.renderDoc indent style inner c sheet)
    IsKept page spaced after ∧ Starts page spaced after n := by
  intro after
  have hpair : Spends page.measure (pair c sep (n :: ps)) :=
    hc.spends.append (hsep.spends.append hn.spends)
  rw [fitsOn_eq hpair true (.inl hwidth), decide_eq_true_iff] at hfits
  simp only [pair, Doc.columnsAll_cons, Doc.columnsAll_nil] at hfits
  obtain ⟨line, hat, _⟩ := hsheet
  have hcontent : Adds page spaced _ _ sheet (page.renderDoc indent style inner c sheet) :=
    hc.adds indent style inner sheet (by simp; omega)
  have hafter : Adds page spaced _ _ sheet after := hcontent.trans (adds_joint hsep indent outer _)
  have hcolumn := hafter.1
  simp only [Doc.columnsAll_cons, Doc.columnsAll_nil] at hcolumn
  exact ⟨(hafter.2 line hat).isKept (by omega), .inr ⟨hn, by omega⟩⟩

/-- **A body keeps all lines**, those of its blocks included. -/
theorem Body.renders (hwidth : 0 ≤ page.width) {part : Part} {ds : List Doc} (h : Body spaced part ds) :
    part.Renders page spaced ds := by
  induction h with
  | item neat => exact fun indent style pending sheet hsheet => neat.isLoose hwidth indent style pending hsheet
  | @hollow o s opening closing =>
    intro indent style pending sheet hsheet
    have hopening : IsLoose page spaced (page.renderDoc indent style
        ((style, [.hardLine, .text s]) :: (style, []) :: pending) o sheet) :=
      opening.isLoose hwidth indent style _ hsheet
    have hline := hopening.isKept.hardLine indent style ((style, [.text s]) :: (style, []) :: pending)
    exact hline.write closing
  | @block o ps s opening _ closing ih =>
    intro indent style pending sheet hsheet
    have hopening : IsLoose page spaced (page.renderDoc indent style
        ((style, [.indent (.concat [.hardLine, .fill ps]), .hardLine, .text s]) :: (style, []) :: pending)
        o sheet) := opening.isLoose hwidth indent style _ hsheet
    have hline := hopening.isKept.hardLine (indent + page.step) style
      ((style, [.fill ps]) :: (style, [.hardLine, .text s]) :: (style, []) :: pending)
    have hbody := ih (indent + page.step) style
      ((style, []) :: (style, [.hardLine, .text s]) :: (style, []) :: pending) _ hline.isKept
      fun _ _ => .inl hline
    have hclosing := hbody.hardLine indent style ((style, [.text s]) :: (style, []) :: pending)
    exact hclosing.write closing
  | nil => exact fun _ _ _ _ hsheet _ => hsheet
  | last _ ih =>
    intro indent style pending sheet hsheet hstarts
    exact (hstarts _ rfl).isKept hsheet ih indent _ pending
  | @joined c sep n ps content joint next _ ih =>
    intro indent style pending sheet hsheet hstarts
    obtain ⟨contentStyle, inner, outer, hfill⟩ :=
      page.renderFill_cons indent style pending c sep (n :: ps) sheet
    rw [hfill]
    cases hfits : page.fitsOn true [(.flat, pair c sep (n :: ps))] sheet with
    | true =>
      have hnext := starts_next hwidth content joint next ps indent contentStyle inner outer hsheet hfits
      exact ih indent style pending _ hnext.1 fun d hd => Option.some.inj hd ▸ hnext.2
    | false =>
      have hcontent := (hstarts c rfl).isKept hsheet
        (fun indent style pending _ h => content.isLoose hwidth indent style pending h) indent contentStyle inner
      rw [styleOf, if_neg Bool.false_ne_true, renderDoc_joint joint]
      have hline := hcontent.breakLine indent
      exact ih indent style pending _ hline.isKept fun _ _ => .inl hline
  | @broken c sep ps _ sep_break _ ihcontent ih =>
    intro indent style pending sheet hsheet hstarts
    obtain ⟨contentStyle, inner, outer, hfill⟩ :=
      page.renderFill_cons indent style pending c sep ps sheet
    rw [hfill]
    have hcontent := (hstarts c rfl).isKept hsheet ihcontent indent contentStyle inner
    have hline := sep_break.isLoose indent
      (styleOf (page.fitsOn true [(.flat, pair c sep ps)] sheet)) outer hcontent
    exact ih indent style pending _ hline.isKept fun _ _ => .inl hline

/-- **All lines of a body are kept** on the page it is rendered for. -/
theorem Body.exists_lines {ps : List Doc} (h : Body spaced .parts ps) (page : Page) (hwidth : 0 ≤ page.width) :
    ∃ lines last, page.render (.fill ps) = Bytes.unlines lines ++ last ∧
      (∀ line ∈ lines, Kept page spaced line) ∧ Kept page spaced last := by
  have hblank : IsLoose page spaced .blank := ⟨[], at_blank, loose_spaces 0⟩
  obtain ⟨last, ⟨_, lines, hlines, htext⟩, hlast⟩ :=
    h.renders hwidth 0 .broken [] .blank hblank.isKept fun _ _ => .inl hblank
  refine ⟨lines, Text.stripEnd isPad last, ?_, hlines, hlast.stripEnd⟩
  rw [← Text.stripEnd_unlines, ← htext]
  rfl

end Render


end TexTidy.Layout
