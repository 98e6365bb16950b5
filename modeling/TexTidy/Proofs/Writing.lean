import TexTidy.Proofs.Choice

/-!
# TexTidy.Proofs.Writing

What a layout document can be written as. Which line breaks are taken depends on the page; `Writes` forgets
how that is decided and keeps only what can become of each place: a `line` is a space or a line break, a
`softLine` nothing or a line break. Whatever holds of every writing holds of the rendering on every page
(`Page.writes_render`).

Only the atoms of a document matter for what it can be written as: its texts and its places for line breaks,
in order. A paragraph has the atoms that its steps emit (`atoms_paragraph`): contents as they arrive, and
between two of them the strongest separator.
-/

namespace TexTidy

namespace Layout

/-! ## atoms -/

/-- What a document is made of, without the parts that only decide which lines are broken. -/
inductive Atom where
  | text (s : Bytes)
  | line
  | softLine
  | hardLine
  deriving DecidableEq, Repr

/-- The ink of the texts among atoms, in order. -/
def Atom.inkAll : List Atom → Bytes
  | [] => []
  | .text s :: as => s.ink ++ inkAll as
  | _ :: as => inkAll as

@[simp] theorem Atom.inkAll_append (as bs : List Atom) :
    inkAll (as ++ bs) = inkAll as ++ inkAll bs := by
  induction as with
  | nil => rfl
  | cons a as ih => cases a <;> simp [inkAll, ih]

namespace Doc

mutual

/-- The atoms of a document, in order. -/
def atoms : Doc → List Atom
  | .empty => []
  | .text s => [.text s]
  | .line => [.line]
  | .softLine => [.softLine]
  | .hardLine => [.hardLine]
  | .concat parts => atomsAll parts
  | .indent body => atoms body
  | .group body => atoms body
  | .fill parts => atomsAll parts

/-- The atoms of several documents, in order. -/
def atomsAll : List Doc → List Atom
  | [] => []
  | d :: ds => atoms d ++ atomsAll ds

end

@[simp] theorem atomsAll_append (ds es : List Doc) :
    atomsAll (ds ++ es) = atomsAll ds ++ atomsAll es := by
  induction ds with
  | nil => rfl
  | cons d ds ih => simp [atomsAll, ih]

mutual

/-- The atoms of a document have its ink. -/
theorem inkAll_atoms : ∀ d : Doc, Atom.inkAll d.atoms = d.ink
  | .empty | .line | .softLine | .hardLine => rfl
  | .text _ => List.append_nil _
  | .concat parts | .fill parts => inkAll_atomsAll parts
  | .indent body | .group body => inkAll_atoms body

theorem inkAll_atomsAll : ∀ ds : List Doc, Atom.inkAll (atomsAll ds) = inkAll ds
  | [] => rfl
  | d :: ds => by rw [atomsAll, Atom.inkAll_append, inkAll_atoms d, inkAll_atomsAll ds, inkAll]

end

end Doc

/-! ## writing -/

/-- Writing the atoms behind a text can give another one. -/
def Writes : List Atom → Bytes → Bytes → Prop
  | [], s, t => t = s
  | .text w :: as, s, t => Writes as (s ++ w) t
  | .line :: as, s, t => Writes as (s ++ [Byte.space]) t ∨ ∃ indent, Writes as (broken indent s) t
  | .softLine :: as, s, t => Writes as s t ∨ ∃ indent, Writes as (broken indent s) t
  | .hardLine :: as, s, t => ∃ indent, Writes as (broken indent s) t

theorem writes_append {as bs : List Atom} {s t : Bytes} :
    Writes (as ++ bs) s t ↔ ∃ u, Writes as s u ∧ Writes bs u t := by
  induction as generalizing s with
  | nil => simp [Writes]
  | cons a as ih =>
    cases a with
    | text w => exact ih
    | line =>
      simp only [List.cons_append, Writes, ih]
      grind
    | softLine =>
      simp only [List.cons_append, Writes, ih]
      grind
    | hardLine =>
      simp only [List.cons_append, Writes, ih]
      grind

mutual

/-- Every layout of a document is a writing of its atoms. -/
theorem writes_layout (step depth : Nat) (choice : Choice) : ∀ (d : Doc) (out : Bytes),
    Writes d.atoms out (layout step depth choice d out)
  | .empty, out => rfl
  | .text s, out => rfl
  | .line, out => by
    rw [layout]
    split
    · exact .inl rfl
    · exact .inr ⟨_, rfl⟩
  | .softLine, out => by
    rw [layout]
    split
    · exact .inl rfl
    · exact .inr ⟨_, rfl⟩
  | .hardLine, out => ⟨_, rfl⟩
  | .concat parts, out => writes_layoutAll step depth _ parts out
  | .indent body, out => writes_layout step (depth + 1) _ body out
  | .group body, out => writes_layout step depth _ body out
  | .fill parts, out => writes_layoutAll step depth _ parts out

theorem writes_layoutAll (step depth : Nat) (choices : Nat → Choice) : ∀ (ds : List Doc) (out : Bytes),
    Writes (Doc.atomsAll ds) out (layoutAll step depth choices ds out)
  | [], out => rfl
  | d :: ds, out => by
    rw [Doc.atomsAll, layoutAll]
    exact writes_append.2 ⟨_, writes_layout step depth _ d out, writes_layoutAll step depth _ ds _⟩

end

/-- **A rendered document is a writing of its atoms**, with the blanks at its end stripped. -/
theorem Page.writes_render (page : Page) (d : Doc) :
    ∃ t, Writes d.atoms [] t ∧ page.render d = Text.stripEnd isPad t := by
  obtain ⟨choice, htext, -⟩ := page.lays_renderDoc 0 .broken [] d .blank
  rw [Nat.zero_mul] at htext
  refine ⟨_, writes_layout page.step 0 choice d [], ?_⟩
  rw [render, show ([] : Bytes) = Sheet.blank.text from rfl, ← htext, Sheet.text]

end Layout

/-! ## paragraphs -/

namespace Print

open Layout (Doc Atom)

/-- The atoms of a separator that waits. -/
def gapAtoms (gap : Option Separator) : List Atom :=
  gap.elim [] fun s => s.doc.atoms

/-- A separator that waits, after one more. -/
def widen (gap : Option Separator) (s : Separator) : Option Separator :=
  some (gap.elim s (·.strongest s))

/-- What the steps of a paragraph write, if content has arrived before or not and a separator waits. -/
def emit : Bool → Option Separator → List Step → List Atom
  | _, gap, [] => gapAtoms gap
  | _, gap, .content d :: ss => gapAtoms gap ++ d.atoms ++ emit true none ss
  | begun, gap, .separator s :: ss => emit begun (widen gap s) ss
  | begun, gap, .unlessEmpty s :: ss => emit begun (if begun then widen gap s else gap) ss
  | begun, gap, .ifOpen s :: ss => emit begun (if begun && gap.isNone then some s else gap) ss

namespace Paragraph

/-- What is written of a paragraph under construction. -/
def atoms (p : Paragraph) : List Atom :=
  Doc.atomsAll p.done.reverse ++ Doc.atomsAll p.item.reverse

/-- An item is collected as soon as content has arrived. -/
def Grown (p : Paragraph) : Prop :=
  p.item.isEmpty = true → p.done.isEmpty = true

theorem atoms_settle (p : Paragraph) : p.settle.atoms = p.atoms ++ gapAtoms p.gap := by
  unfold settle
  split
  · next hgap => simp [hgap, gapAtoms]
  · next s hgap => simp [hgap, gapAtoms, atoms, Doc.atomsAll, Doc.atoms]

theorem gap_settle (p : Paragraph) : p.settle.gap = none := by
  unfold settle
  split
  · assumption
  · rfl

theorem isEmpty_of_grown {p : Paragraph} (h : p.Grown) : p.isEmpty = p.item.isEmpty := by
  unfold isEmpty
  cases hitem : p.item.isEmpty with
  | true => simp [h hitem]
  | false => simp

theorem atoms_doc (p : Paragraph) : p.doc.atoms = p.atoms ++ gapAtoms p.gap := by
  rw [← atoms_settle p, doc, Doc.atoms, fillParts, atoms]
  split
  · next hempty => simp [List.isEmpty_iff.1 hempty, Doc.atomsAll]
  · simp [Doc.atomsAll, Doc.atoms]

theorem atoms_addContent (p : Paragraph) (d : Doc) :
    (p.addContent d).atoms = p.atoms ++ gapAtoms p.gap ++ d.atoms := by
  rw [← atoms_settle p]
  simp [addContent, atoms, Doc.atomsAll]

/-- The steps write what they emit behind what is there. -/
theorem atoms_steps {p : Paragraph} (h : p.Grown) (ss : List Step) :
    (p.steps ss).doc.atoms = p.atoms ++ emit (!p.isEmpty) p.gap ss := by
  induction ss generalizing p with
  | nil => exact atoms_doc p
  | cons s ss ih =>
    have hstep : p.steps (s :: ss) = (p.step s).steps ss := rfl
    have hsep (s : Separator) : ((p.addSeparator s).steps ss).doc.atoms =
        p.atoms ++ emit (!p.isEmpty) (widen p.gap s) ss := @ih (p.addSeparator s) h
    rw [hstep]
    cases s with
    | content d =>
      have hgrown : (p.addContent d).Grown := fun h => by simp [addContent] at h
      have hfull : (p.addContent d).isEmpty = false := by simp [addContent, isEmpty]
      rw [step, ih hgrown, emit, hfull, atoms_addContent, addContent, gap_settle]
      simp
    | separator s =>
      rw [step, emit]
      exact hsep s
    | unlessEmpty s =>
      rw [step, emit]
      cases hempty : p.isEmpty with
      | true =>
        rw [if_pos rfl, ih h, hempty]
        rfl
      | false =>
        rw [if_neg (by simp), hsep, hempty]
        rfl
    | ifOpen s =>
      rw [step, emit, isOpen, ← isEmpty_of_grown h]
      split
      · next hopen =>
        obtain ⟨-, hgap⟩ := Bool.and_eq_true_iff.1 hopen
        rw [hsep, widen, Option.isNone_iff_eq_none.1 hgap]
        rfl
      · exact ih h

end Paragraph

/-- **A paragraph writes what its steps emit.** -/
theorem atoms_paragraph (ss : List Step) : (paragraph ss).atoms = emit false none ss :=
  Paragraph.atoms_steps (p := {}) (fun _ => rfl) ss

end Print

end TexTidy
