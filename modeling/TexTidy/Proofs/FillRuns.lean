import TexTidy.Proofs.Filling

/-!
# TexTidy.Proofs.FillRuns

The parts of a paragraph. Content and separators arrive in any order, and the fill that comes out of them is in a normal
form: its parts are content and separator by turns, whatever the order was. What arrives falls into stretches, each a
run of contents and the run of separators behind it. A stretch becomes two parts of the fill, all its contents in one
item and the strongest of its separators.

While a paragraph is under construction the last stretch is the one that is still collected. `Collects` says how the
stretches that have arrived are kept in the paragraph, `Collects.step` that one more arrival keeps it up, and
`Collects.fillParts` what the fill is made of in the end.
-/

namespace TexTidy.Print

open Layout (Doc)

/-! ## stretches -/

/-- What is added to a paragraph without a look at it. -/
inductive Arrival where
  | content (d : Doc)
  | separator (s : Separator)

/-- The step that adds it. -/
def Arrival.step : Arrival → Step
  | .content d => .content d
  | .separator s => .separator s

/-- Contents that arrive in a row, and the separators that arrive in a row behind them. -/
structure Stretch where
  contents : List Doc := []
  separators : List Separator := []

/-- What arrives with a stretch, in order. -/
def Stretch.arrivals (r : Stretch) : List Arrival :=
  r.contents.map .content ++ r.separators.map .separator

/-- The arrivals are cut into stretches wherever content follows a separator, and nowhere else: both runs of a stretch
    are as long as possible. Only the first run of contents and the last run of separators can be empty, and no
    stretch is. -/
structure CutsInto (arrivals : List Arrival) (rs : List Stretch) : Prop where
  arrivals_eq : arrivals = rs.flatMap Stretch.arrivals
  contents : ∀ r ∈ rs.tail, r.contents ≠ []
  separators : ∀ r ∈ rs.dropLast, r.separators ≠ []
  arrived : ∀ r ∈ rs, r.arrivals ≠ []

/-- The separator is the strongest of those that arrived in a row. -/
def Separator.IsStrongest (s : Separator) (ss : List Separator) : Prop :=
  s ∈ ss ∧ ∀ t ∈ ss, t.rank ≤ s.rank

/-- The parts of a fill are content and separator by turns: the contents of a stretch as one item, and the strongest of
    its separators. Only the last stretch can be without separators. -/
inductive Alternates : List Stretch → List Doc → Prop
  | nil : Alternates [] []
  | last (contents : List Doc) : Alternates [{ contents }] [.concat contents]
  | cons {contents : List Doc} {separators : List Separator} {s : Separator} {rs : List Stretch} {parts : List Doc}
      (strongest : s.IsStrongest separators) (rest : Alternates rs parts) :
      Alternates (⟨contents, separators⟩ :: rs) (.concat contents :: s.doc :: parts)

section

variable {arrivals : List Arrival} {rs qs : List Stretch} {r : Stretch} {ds es : List Doc} {p : Paragraph}

theorem Separator.IsStrongest.ne_nil {s : Separator} {ss : List Separator} (h : s.IsStrongest ss) : ss ≠ [] :=
  List.ne_nil_of_mem h.1

/-- Stretches that all have separators can be followed by others. -/
theorem Alternates.append (h : Alternates rs ds) (hrs : ∀ r ∈ rs, r.separators ≠ []) (h' : Alternates qs es) :
    Alternates (rs ++ qs) (ds ++ es) := by
  induction h with
  | nil => exact h'
  | last contents => exact absurd rfl (hrs _ List.mem_cons_self)
  | cons strongest rest ih => exact .cons strongest (ih fun r hr => hrs r (List.mem_cons_of_mem _ hr))

/-! ## a paragraph under construction -/

/-- The stretches `rs` are finished in the paragraph, and `r` is collected. -/
structure Collects (arrivals : List Arrival) (rs : List Stretch) (r : Stretch) (p : Paragraph) : Prop where
  arrivals_eq : arrivals = rs.flatMap Stretch.arrivals ++ r.arrivals
  contents : ∀ q ∈ (rs ++ [r]).tail, q.contents ≠ []
  separators : ∀ q ∈ rs, q.separators ≠ []
  done : Alternates rs p.done.reverse
  item : p.item = r.contents.reverse
  quiet : p.gap = none → r.separators = []
  waiting : ∀ s, p.gap = some s → s.IsStrongest r.separators

theorem collects_nil : Collects [] [] {} {} :=
  ⟨rfl, by simp, by simp, .nil, rfl, fun _ => rfl, nofun⟩

namespace Collects

/-- A separator that waits finishes the stretch. -/
theorem alternates_of_gap (h : Collects arrivals rs r p) {s : Separator} (hs : p.gap = some s) :
    Alternates (rs ++ [r]) (p.done.reverse ++ [.concat r.contents, s.doc]) :=
  h.done.append h.separators (.cons (h.waiting s hs) .nil)

/-- Content goes into the stretch, or it begins another one if a separator waits. -/
theorem addContent (h : Collects arrivals rs r p) (d : Doc) :
    ∃ rs' r', Collects (arrivals ++ [.content d]) rs' r' (p.addContent d) := by
  cases hgap : p.gap with
  | none =>
    have hseparators := h.quiet hgap
    refine ⟨rs, ⟨r.contents ++ [d], []⟩, ?_, ?_, h.separators, ?_, ?_, fun _ => rfl, ?_⟩
    · simp [h.arrivals_eq, Stretch.arrivals, hseparators]
    · have hcontents := h.contents
      cases rs with
      | nil => simp
      | cons q rs =>
        simp only [List.cons_append, List.tail_cons, List.mem_append, List.mem_singleton] at hcontents ⊢
        rintro q (hq | rfl)
        · exact hcontents q (.inl hq)
        · simp
    · rw [Paragraph.addContent, Paragraph.settle_of_gap_eq_none hgap]
      exact h.done
    · simp [Paragraph.addContent, Paragraph.settle_of_gap_eq_none hgap, h.item]
    · simp [Paragraph.addContent, Paragraph.settle_of_gap_eq_none hgap, hgap]
  | some s =>
    have hitem : p.item.reverse = r.contents := by simp [h.item]
    refine ⟨rs ++ [r], ⟨[d], []⟩, ?_, ?_, ?_, ?_, ?_, fun _ => rfl, ?_⟩
    · simp [h.arrivals_eq, Stretch.arrivals]
    · intro q hq
      rw [List.tail_append_of_ne_nil (by simp), List.mem_append, List.mem_singleton] at hq
      rcases hq with hq | rfl
      · exact h.contents q hq
      · simp
    · intro q hq
      rcases List.mem_append.1 hq with hq | hq
      · exact h.separators q hq
      · rw [List.mem_singleton.1 hq]
        exact (h.waiting s hgap).ne_nil
    · have halternates := h.alternates_of_gap hgap
      simpa [Paragraph.addContent, Paragraph.settle_of_gap_eq_some hgap, hitem] using halternates
    · simp [Paragraph.addContent, Paragraph.settle_of_gap_eq_some hgap]
    · simp [Paragraph.addContent, Paragraph.settle_of_gap_eq_some hgap]

/-- A separator goes into the stretch. -/
theorem addSeparator (h : Collects arrivals rs r p) (s : Separator) :
    Collects (arrivals ++ [.separator s]) rs ⟨r.contents, r.separators ++ [s]⟩ (p.addSeparator s) := by
  obtain ⟨t, ht, hfrom, hrank, hold⟩ := p.gap_addSeparator s
  refine ⟨?_, ?_, h.separators, h.done, h.item, fun hnone => ?_, fun u hu => ?_⟩
  · simp [h.arrivals_eq, Stretch.arrivals]
  · have hcontents := h.contents
    cases rs with
    | nil => simp
    | cons q rs => simpa [or_imp, forall_and] using hcontents
  · rw [ht] at hnone
    cases hnone
  · cases ht.symm.trans hu
    refine ⟨?_, fun v hv => ?_⟩
    · rcases hfrom with rfl | hfrom
      · simp
      · exact List.mem_append_left _ (h.waiting t hfrom).1
    · rcases List.mem_append.1 hv with hv | hv
      · cases hgap : p.gap with
        | none => simp [h.quiet hgap] at hv
        | some w => exact Nat.le_trans ((h.waiting w hgap).2 v hv) (hold w hgap)
      · rw [List.mem_singleton.1 hv]
        exact hrank

/-- **One more arrival** leaves a paragraph that collects the stretches. -/
theorem step (h : Collects arrivals rs r p) (a : Arrival) :
    ∃ rs' r', Collects (arrivals ++ [a]) rs' r' (p.step a.step) := by
  cases a with
  | content d => exact h.addContent d
  | separator s => exact ⟨_, _, h.addSeparator s⟩

/-- All arrivals. -/
theorem steps (h : Collects arrivals rs r p) (more : List Arrival) :
    ∃ rs' r', Collects (arrivals ++ more) rs' r' (p.steps (more.map Arrival.step)) := by
  induction more generalizing arrivals rs r p with
  | nil => exact ⟨rs, r, by simpa [Paragraph.steps] using h⟩
  | cons a more ih =>
    obtain ⟨rs', r', ha⟩ := h.step a
    simpa [Paragraph.steps] using ih ha

/-- Stretches that were collected are as long as possible. -/
theorem cutsInto (h : Collects arrivals rs r p) (hr : r.arrivals ≠ []) : CutsInto arrivals (rs ++ [r]) := by
  refine ⟨by simpa using h.arrivals_eq, h.contents, by simpa using h.separators, fun q hq => ?_⟩
  rcases List.mem_append.1 hq with hq | hq
  · have hq := h.separators q hq
    simp [Stretch.arrivals, hq]
  · rwa [List.mem_singleton.1 hq]

/-- **The parts of the fill are the stretches.** -/
theorem fillParts (h : Collects arrivals rs r p) :
    ∃ qs, CutsInto arrivals qs ∧ Alternates qs p.fillParts := by
  have hitem : p.item.reverse = r.contents := by simp [h.item]
  cases hgap : p.gap with
  | some s =>
    refine ⟨rs ++ [r], h.cutsInto ?_, ?_⟩
    · simp [Stretch.arrivals, (h.waiting s hgap).ne_nil]
    · have halternates := h.alternates_of_gap hgap
      simpa [Paragraph.fillParts, Paragraph.settle_of_gap_eq_some hgap, hitem] using halternates
  | none =>
    have hseparators := h.quiet hgap
    by_cases hcontents : r.contents = []
    · -- Nothing was collected, and so nothing has arrived.
      have hnil : rs = [] := by
        cases rs with
        | nil => rfl
        | cons q rs => exact absurd hcontents (h.contents r (by simp))
      subst hnil
      refine ⟨[], ⟨?_, by simp, by simp, by simp⟩, ?_⟩
      · simpa [Stretch.arrivals, hcontents, hseparators] using h.arrivals_eq
      · simpa [Paragraph.fillParts, Paragraph.settle_of_gap_eq_none hgap, h.item, hcontents] using h.done
    · refine ⟨rs ++ [r], h.cutsInto (by simp [Stretch.arrivals, hcontents]), ?_⟩
      have hlast : Alternates [r] [.concat r.contents] := by
        obtain ⟨contents, separators⟩ := r
        cases hseparators
        exact .last contents
      have halternates := h.done.append h.separators hlast
      simpa [Paragraph.fillParts, Paragraph.settle_of_gap_eq_none hgap, h.item, hcontents] using halternates

end Collects

end

/-- **A paragraph is a fill in normal form.** Whatever content and separators arrive at an empty paragraph, in any
    order: they fall into stretches that are as long as possible, and the parts of the fill are the contents of each
    stretch and the strongest of its separators, by turns. -/
theorem paragraph_alternates (arrivals : List Arrival) :
    ∃ rs parts, CutsInto arrivals rs ∧ Alternates rs parts ∧ paragraph (arrivals.map Arrival.step) = .fill parts := by
  obtain ⟨rs, r, h⟩ := collects_nil.steps arrivals
  obtain ⟨qs, hqs, hparts⟩ := h.fillParts
  exact ⟨qs, _, hqs, hparts, rfl⟩

end TexTidy.Print
