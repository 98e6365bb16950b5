import TexTidy.Proofs.Mark
import TexTidy.Proofs.Writing

/-!
# TexTidy.Proofs.Guard

Comments in a layout document. A comment hides what stands behind it on its line, so behind its text a
layout must end the line in every writing. `Mark.Shown` says that of one comment in the atoms of a
document: its percent sign stands behind the ink of its mark, its content follows, and then comes a
newline, a line break that is always taken, or the end.

Whether the line of the last comment ends is often up to what comes next. `Guards true` leaves that open
and `Guards false` does not; the closing of a container may only stand behind atoms that are guarded without
condition. `Fences` says the same of the steps of a paragraph, whose separators are not decided before the
next content arrives.
-/

namespace TexTidy

open Bytes (ink)
open Layout (Atom Doc)

/-! ## the ends of lines -/

/-- Whether atoms begin with the end of a line: a line break that is always taken, or nothing at all. Empty
    texts do not count, and neither does one carriage return, if `return?` allows for it. -/
def Layout.Atom.endsLine : (return? : Bool) → List Atom → Bool
  | _, [] => true
  | _, .hardLine :: _ => true
  | return?, .text s :: as =>
    if s.isEmpty then endsLine return? as
    else if return? && s = [Byte.carriageReturn] then endsLine false as
    else false
  | _, _ => false

/-- The comment of a mark is shown by the atoms, and its line ends behind it. -/
def Mark.Shown (as : List Atom) (m : Mark) : Prop :=
  ∃ front left body right after, as = front ++ .text (left ++ Byte.percent :: (body ++ right)) :: after ∧
    Atom.inkAll front ++ ink left = m.before ∧
    (body = m.comment.content ∨ body = m.comment.content.trimEnd isLineBlank) ∧
    (BreaksLine right ∨ right = [] ∧ Atom.endsLine true after = true)

theorem Mark.Shown.shift {as : List Atom} {m : Mark} (h : m.Shown as) (front : List Atom) :
    (m.shift (Atom.inkAll front)).Shown (front ++ as) := by
  obtain ⟨front', left, body, right, after, rfl, hink, hbody, hends⟩ := h
  exact ⟨front ++ front', left, body, right, after, by simp, by simp [Mark.shift, ← hink], hbody, hends⟩

/-! ## atoms -/

/-- The comments are shown by the atoms, if the line ends behind them or, without `ends?`, in any case. -/
def Guards (ends? : Bool) (ms : List Mark) (as : List Atom) : Prop :=
  ∀ z, (ends? = true → Atom.endsLine true z = true) → ∀ m ∈ ms, m.Shown (as ++ z)

section

variable {open? ends? : Bool} {ms ks : List Mark} {as bs : List Atom}

theorem guards_nil (ends? : Bool) (as : List Atom) : Guards ends? [] as := by
  intro z _ m hm
  cases hm

theorem Guards.weaken (h : Guards open? ms as) (himp : open? = true → ends? = true) :
    Guards ends? ms as :=
  fun z hz => h z fun hopen => hz (himp hopen)

theorem Guards.append (h : Guards false ms as) (h' : Guards ends? ks bs) :
    Guards ends? (ms ++ ks.map (Mark.shift (Atom.inkAll as))) (as ++ bs) := by
  intro z hz m hm
  rw [List.append_assoc]
  rcases List.mem_append.1 hm with hm | hm
  · exact h _ (by simp) m hm
  · obtain ⟨k, hk, rfl⟩ := List.mem_map.1 hm
    exact (h' z hz k hk).shift as

/-- Atoms without comments in front. -/
theorem Guards.shift (h : Guards ends? ms bs) (as : List Atom) :
    Guards ends? (ms.map (Mark.shift (Atom.inkAll as))) (as ++ bs) :=
  (guards_nil false as).append h

/-- Atoms without comments behind. -/
theorem Guards.concat (h : Guards false ms as) (bs : List Atom) : Guards false ms (as ++ bs) := by
  intro z _ m hm
  rw [List.append_assoc]
  exact h _ (by simp) m hm

/-- A line break behind the atoms ends the line of the last comment. -/
theorem Guards.close (h : Guards ends? ms as) (bs : List Atom) :
    Guards false ms (as ++ .hardLine :: bs) := by
  intro z _ m hm
  rw [List.append_assoc]
  exact h _ (fun _ => rfl) m hm

end

/-! ## steps -/

namespace Print

theorem inkAll_gapAtoms (gap : Option Separator) : Atom.inkAll (gapAtoms gap) = [] := by
  cases gap with
  | none => rfl
  | some s => exact (Doc.inkAll_atoms s.doc).trans s.ink_doc

/-- Steps emit the atoms of what they bring, with their ink, and leave the paragraph in some state. -/
theorem exists_emit_append (ss : List Step) (begun : Bool) (gap : Option Separator) :
    ∃ front begun' gap', Atom.inkAll front = inkOf ss ∧
      ∀ ts, emit begun gap (ss ++ ts) = front ++ emit begun' gap' ts := by
  induction ss generalizing begun gap with
  | nil => exact ⟨[], begun, gap, rfl, fun _ => rfl⟩
  | cons s ss ih =>
    cases s with
    | content d =>
      obtain ⟨front, begun', gap', hink, hemit⟩ := ih true none
      refine ⟨gapAtoms gap ++ d.atoms ++ front, begun', gap', ?_, fun ts => ?_⟩
      · simp [inkAll_gapAtoms, Doc.inkAll_atoms, hink, Step.ink]
      · simp [emit, hemit]
    | separator s => exact ih begun (widen gap s)
    | unlessEmpty s => exact ih begun _
    | ifOpen s => exact ih begun _

/-- A separator that is at least a line break. -/
def Separator.isForced (s : Separator) : Bool :=
  3 ≤ s.rank

theorem Separator.isForced_strongest {s : Separator} (t : Separator) (h : s.isForced = true) :
    (s.strongest t).isForced = true := by
  unfold strongest
  split
  · exact h
  · next hweaker =>
    simp only [isForced, decide_eq_true_eq] at *
    omega

theorem Separator.endsLine_doc {s : Separator} (h : s.isForced = true) (z : List Atom) :
    Atom.endsLine true (s.doc.atoms ++ z) = true := by
  cases s <;> first | rfl | cases h

/-- A line break that waits is written before anything else. -/
theorem endsLine_emit (ss : List Step) (begun : Bool) {s : Separator} (h : s.isForced = true)
    (z : List Atom) : Atom.endsLine true (emit begun (some s) ss ++ z) = true := by
  induction ss generalizing begun s with
  | nil => exact s.endsLine_doc h z
  | cons t ss ih =>
    cases t with
    | content d =>
      rw [emit, List.append_assoc, List.append_assoc]
      exact s.endsLine_doc h _
    | separator t => exact ih begun (s.isForced_strongest t h)
    | unlessEmpty t =>
      rw [emit]
      split
      · exact ih begun (s.isForced_strongest t h)
      · exact ih begun h
    | ifOpen t =>
      rw [emit, if_neg (by simp)]
      exact ih begun h

/-- The comments are shown by whatever the steps emit, if the line ends behind them or, without `ends?`, in
    any case. -/
def Fences (ends? : Bool) (ms : List Mark) (ss : List Step) : Prop :=
  ∀ begun gap ts z, (ends? = true → Atom.endsLine true (emit true none ts ++ z) = true) →
    ∀ m ∈ ms, m.Shown (emit begun gap (ss ++ ts) ++ z)

/-- A line that is open before the steps ends in what they emit or, with `ends?`, behind them. -/
def Seals (ends? : Bool) (ss : List Step) : Prop :=
  ∀ ts z, (ends? = true → Atom.endsLine true (emit true none ts ++ z) = true) →
    Atom.endsLine true (emit true none (ss ++ ts) ++ z) = true

theorem seals_nil : Seals true [] :=
  fun _ _ hz => hz rfl

theorem seals_separator {s : Separator} (hs : s.isForced = true) (ends? : Bool) (ss : List Step) :
    Seals ends? (.separator s :: ss) :=
  fun ts z _ => endsLine_emit (ss ++ ts) true hs z

section

variable {open? ends? : Bool} {ms ks : List Mark} {ss ts : List Step}

theorem fences_nil (ends? : Bool) (ss : List Step) : Fences ends? [] ss := by
  intro begun gap ts z _ m hm
  cases hm

theorem Fences.weaken (h : Fences open? ms ss) (himp : open? = true → ends? = true) :
    Fences ends? ms ss :=
  fun begun gap ts z hz => h begun gap ts z fun hopen => hz (himp hopen)

theorem fences_content {d : Doc} (h : Guards ends? ms d.atoms) : Fences ends? ms [.content d] := by
  intro begun gap ts z hz m hm
  have hshown := (h (emit true none ts ++ z) hz m hm).shift (gapAtoms gap)
  rw [inkAll_gapAtoms] at hshown
  simpa [emit, Mark.shift_nil] using hshown

/-- Steps behind others have to end the line that those leave open. -/
theorem Fences.append (h : Fences open? ms ss) (h' : Fences ends? ks ts)
    (hseals : open? = true → Seals ends? ts) :
    Fences ends? (ms ++ ks.map (Mark.shift (inkOf ss))) (ss ++ ts) := by
  intro begun gap us z hz m hm
  rw [List.append_assoc]
  rcases List.mem_append.1 hm with hm | hm
  · exact h begun gap (ts ++ us) z (fun hopen => hseals hopen us z hz) m hm
  · obtain ⟨k, hk, rfl⟩ := List.mem_map.1 hm
    obtain ⟨front, begun', gap', hink, hemit⟩ := exists_emit_append ss begun gap
    rw [hemit, ← hink, List.append_assoc]
    exact (h' begun' gap' us z hz k hk).shift front

/-- Steps without comments in front. -/
theorem Fences.shift (h : Fences ends? ms ts) (ss : List Step) :
    Fences ends? (ms.map (Mark.shift (inkOf ss))) (ss ++ ts) :=
  (fences_nil false ss).append h (by simp)

/-- Steps without comments behind. -/
theorem Fences.concat (h : Fences open? ms ss) (hseals : open? = true → Seals false ts) :
    Fences false ms (ss ++ ts) := by
  simpa using h.append (fences_nil false ts) hseals

/-- **A paragraph guards what its steps fence.** -/
theorem guards_paragraph (h : Fences ends? ms ss) : Guards ends? ms (paragraph ss).atoms := by
  intro z hz m hm
  have hshown := h false none [] z hz m hm
  rwa [List.append_nil, ← atoms_paragraph] at hshown

end

end Print

end TexTidy
