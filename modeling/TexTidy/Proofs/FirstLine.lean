import Mathlib.Data.List.TakeWhile
import TexTidy.Layout.Fits

/-!
# TexTidy.Proofs.FirstLine

What `fits` measures. It walks through what is pending and stops as soon as the room is spent, the line ends or a group
is refused. Seen as a whole it compares one number with the width: the columns of the first line.

`Doc.met` lists what the walk meets, in order and without looking at any room. `onLine` cuts the list at the first end
of a line, and `lineColumns` adds up the columns before it. A walk through a part of the documents is put together with
what comes later by `Room.Answers`: it gives a verdict that nothing later can change, or the room that is left for what
comes later.
-/

namespace TexTidy.Layout

/-! ## the first line -/

/-- What is met on the way through a document: its leaves, each place for a line break in the style it inherits, and
    the groups that hold a line break in any layout, each in front of its content. -/
inductive Met where
  | text (s : Bytes)
  | line (style : Style)
  | softLine (style : Style)
  | hardLine
  | hardGroup
  deriving DecidableEq, Repr

namespace Met

/-- Whether the line ends here. -/
def ends : Met → Bool
  | .text s => s.hasNewline
  | .line style => style = .broken
  | .softLine style => style = .broken
  | .hardLine => true
  | .hardGroup => false

/-- The columns that it takes on the line. Of a text only what stands before its first newline counts. -/
def columns (measure : Bytes → Nat) : Met → Nat
  | .text s => measure (firstLine s)
  | .line .flat => 1
  | _ => 0

end Met

namespace Doc

mutual

/-- What is met in a document that inherits a style, in order. A group that holds a line break in any layout is
    broken. -/
def met (style : Style) : Doc → List Met
  | .empty => []
  | .text s => [.text s]
  | .line => [.line style]
  | .softLine => [.softLine style]
  | .hardLine => [.hardLine]
  | .concat parts => metAll style parts
  | .indent body => met style body
  | .group body => if body.hard then .hardGroup :: met .broken body else met style body
  | .fill parts => metAll style parts

/-- What is met in documents that inherit a style, in order. -/
def metAll (style : Style) : List Doc → List Met
  | [] => []
  | d :: ds => met style d ++ metAll style ds

end

end Doc

/-- What is met in pending documents, in order. -/
def Pending.met (pending : Pending) : List Met :=
  pending.flatMap fun run => Doc.metAll run.1 run.2

/-- What is met on the first line, its end included. -/
def onLine : List Met → List Met
  | [] => []
  | m :: ms => if m.ends then [m] else m :: onLine ms

/-- The columns of the first line. -/
def lineColumns (measure : Bytes → Nat) (ms : List Met) : Nat :=
  (onLine ms).foldr (·.columns measure + ·) 0

/-- The first line of what is met fits into the room. If it has to be flat, there is no group on it that can not be
    flat. -/
def FitsLine (measure : Bytes → Nat) (strict : Bool) (ms : List Met) (room : Int) : Prop :=
  lineColumns measure ms ≤ room ∧ (strict = true → Met.hardGroup ∉ onLine ms)

section

variable {measure : Bytes → Nat} {strict : Bool} {ms ns : List Met} {m : Met} {room : Int}

theorem firstLine_of_hasNewline {s : Bytes} (h : s.hasNewline = false) : firstLine s = s := by
  have hs : Byte.newline ∉ s := by simpa [Bytes.hasNewline] using h
  refine List.takeWhile_eq_self_iff.2 fun b hb => ?_
  rw [bne_iff_ne]
  rintro rfl
  exact hs hb

/-- Nothing that comes behind the end of a line counts. -/
theorem fitsLine_of_ends (h : m.ends = true) :
    FitsLine measure strict (m :: ms) room ↔ m.columns measure ≤ room := by
  have hm : Met.hardGroup ≠ m := by
    rintro rfl
    cases h
  simp [FitsLine, lineColumns, onLine, h, hm]

/-- On the line everything takes its columns from the room. -/
theorem fitsLine_cons (h : m.ends = false) :
    FitsLine measure strict (m :: ms) room ↔
      (strict = true → m ≠ .hardGroup) ∧ FitsLine measure strict ms (room - m.columns measure) := by
  simp only [FitsLine, lineColumns, onLine, h, Bool.false_eq_true, if_false, List.foldr_cons, List.mem_cons, not_or,
    Int.natCast_add]
  constructor
  · rintro ⟨hcolumns, hflat⟩
    exact ⟨fun hs => Ne.symm (hflat hs).1, by omega, fun hs => (hflat hs).2⟩
  · rintro ⟨hm, hcolumns, hflat⟩
    exact ⟨by omega, fun hs => ⟨Ne.symm (hm hs), hflat hs⟩⟩

/-- No line fits once the room is spent. -/
theorem not_fitsLine_of_neg (h : room < 0) : ¬ FitsLine measure strict ms room := by
  rintro ⟨hcolumns, -⟩
  omega

end

/-! ## the walk -/

/-- The outcome of a walk through `ms` with some room: a verdict, whatever comes later, or the room that is left for
    what comes later. -/
def Room.Answers (measure : Bytes → Nat) (strict : Bool) (ms : List Met) (room : Int) : Room → Prop
  | .ended verdict => ∀ later, FitsLine measure strict (ms ++ later) room ↔ verdict = true
  | .left rest => ∀ later, FitsLine measure strict (ms ++ later) room ↔ FitsLine measure strict later rest

section

variable {measure : Bytes → Nat} {strict : Bool} {ms ns : List Met} {m : Met} {room rest : Int} {verdict : Bool}
  {outcome : Room}

namespace Room

theorem Answers.nil : (Room.left room).Answers measure strict [] room :=
  fun _ => Iff.rfl

/-- A verdict stands. -/
theorem Answers.append (h : (Room.ended verdict).Answers measure strict ms room) (ns : List Met) :
    (Room.ended verdict).Answers measure strict (ms ++ ns) room := by
  intro later
  rw [List.append_assoc]
  exact h (ns ++ later)

/-- A walk goes on with the room that is left. -/
theorem Answers.trans (h : (Room.left rest).Answers measure strict ms room)
    (h' : outcome.Answers measure strict ns rest) : outcome.Answers measure strict (ms ++ ns) room := by
  cases outcome with
  | left final =>
    intro later
    rw [List.append_assoc, h]
    exact h' later
  | ended verdict =>
    intro later
    rw [List.append_assoc, h]
    exact h' later

/-- The line ends here. -/
theorem Answers.ends (h : m.ends = true) (hfits : m.columns measure ≤ room ↔ verdict = true) :
    (Room.ended verdict).Answers measure strict [m] room :=
  fun _ => (fitsLine_of_ends h).trans hfits

/-- The line goes on. -/
theorem Answers.goes (h : m.ends = false) (hm : m ≠ .hardGroup) (hrest : rest = room - m.columns measure) :
    (Room.left rest).Answers measure strict [m] room := by
  intro later
  rw [List.singleton_append, fitsLine_cons h, hrest]
  exact and_iff_right fun _ => hm

/-- A line that has to be flat does not fit if a group on it can not be flat. -/
theorem Answers.refused (h : strict = true) :
    (Room.ended false).Answers measure strict (.hardGroup :: ms) room := by
  intro later
  rw [List.cons_append, fitsLine_cons rfl]
  simp [h]

/-- Otherwise such a group takes no room by itself. -/
theorem Answers.hardGroup (h : strict ≠ true) (h' : outcome.Answers measure strict ms room) :
    outcome.Answers measure strict (.hardGroup :: ms) room := by
  have hgroup : (Room.left room).Answers measure strict [.hardGroup] room := by
    intro later
    rw [List.singleton_append, fitsLine_cons rfl]
    simp [h, Met.columns]
  exact hgroup.trans h'

/-- Nothing fits into no room. -/
theorem Answers.spent (h : room < 0) : (Room.ended false).Answers measure strict ms room :=
  fun _ => iff_of_false (not_fitsLine_of_neg h) Bool.false_ne_true

end Room

mutual

/-- **Spending the room for a document measures what is met in it.** -/
theorem spend_answers (style : Style) : ∀ (d : Doc) (room : Int), 0 ≤ room →
    (spend measure strict style d room).Answers measure strict (d.met style) room
  | .empty, _, _ => .nil
  | .text s, room, _ => by
    rw [spend, Doc.met]
    split
    · next hs => exact .ends hs (by simp [Met.columns])
    · next hs =>
      have hs : s.hasNewline = false := Bool.eq_false_iff.2 hs
      exact .goes hs nofun (by rw [Met.columns, firstLine_of_hasNewline hs])
  | .line, room, hroom => by
    rw [spend, Doc.met]
    cases style with
    | flat => exact .goes rfl nofun rfl
    | broken => exact .ends rfl (by simpa [Met.columns] using hroom)
  | .softLine, room, hroom => by
    rw [spend, Doc.met]
    cases style with
    | flat => exact .goes rfl nofun (Int.sub_zero room).symm
    | broken => exact .ends rfl (by simpa [Met.columns] using hroom)
  | .hardLine, room, hroom => .ends rfl (by simpa [Met.columns] using hroom)
  | .concat parts, room, _ => spendAll_answers style parts room
  | .indent body, room, hroom => spend_answers style body room hroom
  | .group body, room, hroom => by
    rw [spend, Doc.met]
    split
    · split
      · next hstrict => exact .refused hstrict
      · next hstrict => exact .hardGroup hstrict (spend_answers .broken body room hroom)
    · exact spend_answers style body room hroom
  | .fill parts, room, _ => spendAll_answers style parts room

/-- Spending the room for documents measures what is met in them, also if there is no room from the start. -/
theorem spendAll_answers (style : Style) : ∀ (ds : List Doc) (room : Int),
    (spendAll measure strict style ds room).Answers measure strict (Doc.metAll style ds) room
  | [], _ => .nil
  | d :: ds, room => by
    rw [spendAll, Doc.metAll]
    split
    · next hroom => exact .spent hroom
    · next hroom =>
      have hd : (spend measure strict style d room).Answers measure strict (d.met style) room :=
        spend_answers style d room (Int.not_lt.1 hroom)
      split
      · next hended => exact (hended ▸ hd).append _
      · next hleft => exact (hleft ▸ hd).trans (spendAll_answers style ds _)

end

/-- Whether pending documents fit is whether what is met in them does. -/
theorem fits_iff_fitsLine (pending : Pending) (room : Int) :
    fits measure strict pending room = true ↔ FitsLine measure strict pending.met room := by
  induction pending generalizing room with
  | nil => simp [fits, Pending.met, FitsLine, lineColumns, onLine]
  | cons p pending ih =>
    obtain ⟨style, docs⟩ := p
    have hdocs : (spendAll measure strict style docs room).Answers measure strict (Doc.metAll style docs) room :=
      spendAll_answers style docs room
    rw [fits, Pending.met, List.flatMap_cons]
    split
    · next hended => exact ((hended ▸ hdocs) _).symm
    · next hleft => exact (ih _).trans ((hleft ▸ hdocs) _).symm

end

/-- **`fits` measures the first line.** Pending documents fit into a width if the columns of what is met in them up to
    the end of the first line are at most the width. If the line has to be flat, no group that can not be flat is met
    before that. Nothing fits into a negative width. -/
theorem fits_measures_first_line (measure : Bytes → Nat) (pending : Pending) (width : Int) :
    (fits measure false pending width = true ↔ lineColumns measure pending.met ≤ width) ∧
    (fits measure true pending width = true ↔
      lineColumns measure pending.met ≤ width ∧ Met.hardGroup ∉ onLine pending.met) ∧
    (width < 0 → ∀ strict, fits measure strict pending width = false) := by
  refine ⟨?_, ?_, fun hwidth strict => ?_⟩
  · rw [fits_iff_fitsLine]
    simp [FitsLine]
  · rw [fits_iff_fitsLine]
    simp [FitsLine]
  · rw [Bool.eq_false_iff, Ne, fits_iff_fitsLine]
    exact not_fitsLine_of_neg hwidth

/-- A text with a newline ends the line, behind a group that can not be flat. -/
theorem fits_measures_first_line_pending :
    let pending : Pending := [(.flat, [.text (bytes "ab"), .line, .indent .softLine]),
      (.broken, [.group (.concat [.text (bytes "cd\ne"), .line])])]
    lineColumns List.length pending.met = 5 ∧ fits List.length false pending 5 = true ∧
      fits List.length false pending 4 = false ∧ fits List.length true pending 5 = false ∧
      ∀ strict, fits List.length strict pending (-1) = false := by
  intro pending
  have hcolumns : lineColumns List.length pending.met = 5 := by decide
  have hgroup : Met.hardGroup ∈ onLine pending.met := by decide
  refine ⟨hcolumns, ?_, ?_, ?_, (fits_measures_first_line List.length pending (-1)).2.2 (by decide)⟩
  · exact (fits_measures_first_line List.length pending 5).1.2 (by rw [hcolumns]; decide)
  · refine Bool.eq_false_iff.2 fun h => ?_
    have hwidth := (fits_measures_first_line List.length pending 4).1.1 h
    rw [hcolumns] at hwidth
    exact absurd hwidth (by decide)
  · refine Bool.eq_false_iff.2 fun h => ?_
    exact ((fits_measures_first_line List.length pending 5).2.1.1 h).2 hgroup

end TexTidy.Layout
