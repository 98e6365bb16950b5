import TexTidy.Proofs.Wrapping
import TexTidy.Proofs.Writing

/-!
# TexTidy.Proofs.Filling

From the steps of a paragraph to the class of its fill. A nested sequence takes only steps that keep the fill
neat, so one invariant of the paragraph does (`Paragraph.IsNeat`). In a body the current item either *flows*
(its contents are neat) or *stands* (it is a block), and what can arrive next depends on that:
`Paragraph.Takes` says that neat content can.
-/

namespace TexTidy.Print

open Layout (Doc Neat Joint Body Break)

variable {spaced : Bool} {p : Paragraph} {d : Doc} {s : Separator}

theorem neat_append_singleton {ds : List Doc} (h : Neat spaced .items ds) (hd : Neat spaced .item [d]) :
    Neat spaced .items (ds ++ [d]) := by
  induction ds with
  | nil => exact .cons hd .nil
  | cons e ds ih =>
    cases h with
    | cons head tail => exact .cons head (ih tail)

theorem Separator.strongest_cases (a b : Separator) : a.strongest b = a ∨ a.strongest b = b := by
  unfold strongest
  split
  · exact .inl rfl
  · exact .inr rfl

theorem Separator.break_doc_iff : Break s.doc ↔ 3 ≤ s.rank := by
  cases s with
  | none | soft | line => exact ⟨fun h => (nomatch h), fun h => absurd h (by decide)⟩
  | forced => exact ⟨fun _ => Nat.le_refl 3, fun _ => .line⟩
  | paragraph => exact ⟨fun _ => by decide, fun _ => .paragraph⟩

theorem Separator.joint_doc (hs : s ≠ .none) (hbreak : ¬ Break s.doc) : Joint true s.doc := by
  cases s with
  | none => exact absurd rfl hs
  | soft => exact .softLine
  | line => exact .line rfl
  | forced => exact absurd .line hbreak
  | paragraph => exact absurd .paragraph hbreak

/-! ## nested sequences -/

/-- A step of a nested sequence. -/
inductive NeatStep (spaced : Bool) : Step → Prop
  | content {d : Doc} (neat : Neat spaced .item [d]) : NeatStep spaced (.content d)
  | space (allowed : spaced = true) : NeatStep spaced (.separator .line)
  | ifOpen : NeatStep spaced (.ifOpen .soft)

namespace Paragraph

/-- The fill of the paragraph is going to be neat. -/
structure IsNeat (spaced : Bool) (p : Paragraph) : Prop where
  done : ∀ rest, Neat spaced .parts rest → Neat spaced .parts (p.done.reverse ++ rest)
  item : Neat spaced .items p.item.reverse
  gap : ∀ s, p.gap = some s → Joint spaced s.doc

theorem isNeat_empty : IsNeat spaced {} :=
  ⟨fun _ h => h, .nil, fun _ h => by cases h⟩

theorem settle_of_gap_eq_none (h : p.gap = none) : p.settle = p := by
  rw [settle, h]

theorem settle_of_gap_eq_some (h : p.gap = some s) :
    p.settle = { done := s.doc :: .concat p.item.reverse :: p.done } := by
  rw [settle, h]

theorem IsNeat.settle (h : IsNeat spaced p) : IsNeat spaced p.settle := by
  cases hgap : p.gap with
  | none => rwa [settle_of_gap_eq_none hgap]
  | some s =>
    rw [settle_of_gap_eq_some hgap]
    refine ⟨fun rest hrest => ?_, .nil, fun _ h => by cases h⟩
    have hdone := h.done _ (.part (.concat h.item) (h.gap s hgap) hrest)
    simpa using hdone

theorem IsNeat.addContent (h : IsNeat spaced p) (hd : Neat spaced .item [d]) :
    IsNeat spaced (p.addContent d) := by
  have hsettle := h.settle
  refine ⟨hsettle.done, ?_, hsettle.gap⟩
  rw [Paragraph.addContent, List.reverse_cons]
  exact neat_append_singleton hsettle.item hd

/-- Of two separators in a row one counts. -/
theorem gap_addSeparator (p : Paragraph) (s : Separator) :
    ∃ t, (p.addSeparator s).gap = some t ∧ (t = s ∨ p.gap = some t) ∧ s.rank ≤ t.rank ∧
      ∀ u, p.gap = some u → u.rank ≤ t.rank := by
  cases hgap : p.gap with
  | none => exact ⟨s, by rw [addSeparator, hgap]; rfl, .inl rfl, Nat.le_refl _, fun _ h => by cases h⟩
  | some u =>
    have hrank := u.rank_strongest s
    refine ⟨u.strongest s, by rw [addSeparator, hgap]; rfl, ?_, by omega, fun v hv => ?_⟩
    · rcases u.strongest_cases s with heq | heq
      · exact .inr (by rw [heq])
      · exact .inl heq
    · cases hv
      omega

theorem IsNeat.addSeparator (h : IsNeat spaced p) (hs : Joint spaced s.doc) :
    IsNeat spaced (p.addSeparator s) := by
  refine ⟨h.done, h.item, fun t ht => ?_⟩
  obtain ⟨u, hu, hold, _⟩ := p.gap_addSeparator s
  cases ht.symm.trans hu
  rcases hold with rfl | hold
  · exact hs
  · exact h.gap t hold

theorem IsNeat.step (h : IsNeat spaced p) {step : Step} (hstep : NeatStep spaced step) :
    IsNeat spaced (p.step step) := by
  cases hstep with
  | content neat => exact h.addContent neat
  | space allowed => exact h.addSeparator (.line allowed)
  | ifOpen =>
    rw [Paragraph.step]
    split
    · exact h.addSeparator .softLine
    · exact h

theorem IsNeat.steps (h : IsNeat spaced p) {ss : List Step} (hss : ∀ s ∈ ss, NeatStep spaced s) :
    IsNeat spaced (p.steps ss) := by
  induction ss generalizing p with
  | nil => exact h
  | cons s ss ih =>
    obtain ⟨hs, hss⟩ := List.forall_mem_cons.1 hss
    exact ih (h.step hs) hss

theorem IsNeat.fillParts (h : IsNeat spaced p) : Neat spaced .parts p.fillParts := by
  have hsettle := h.settle
  rw [Paragraph.fillParts]
  split
  · simpa using hsettle.done [] .none
  · simpa using hsettle.done _ (.last (.concat hsettle.item))

end Paragraph

/-- **The fill of a nested sequence is neat.** -/
theorem neat_paragraph {ss : List Step} (h : ∀ s ∈ ss, NeatStep spaced s) :
    Neat spaced .item [paragraph ss] :=
  .fill (Paragraph.isNeat_empty.steps h).fillParts

/-! ## bodies -/

namespace Paragraph

/-- The current item is neat, and so may be what stands before it. -/
structure Flows (spaced : Bool) (p : Paragraph) : Prop where
  done : ∀ c ps, Neat spaced .item [c] → Body spaced .parts (c :: ps) →
    Body spaced .parts (p.done.reverse ++ c :: ps)
  item : Neat spaced .items p.item.reverse
  fresh : p.item = [] → p.done = []

/-- The current item is a block on lines of its own. -/
structure Stands (spaced : Bool) (p : Paragraph) : Prop where
  done : ∀ ps, Body spaced .parts ps → Body spaced .parts (p.done.reverse ++ ps)
  item : ∃ d, p.item = [d] ∧ Body spaced .piece [.concat [d]]

/-- A line break is waiting. -/
def Breaks (p : Paragraph) : Prop :=
  ∃ s, p.gap = some s ∧ Break s.doc

/-- Neat content can arrive. -/
inductive Takes (spaced : Bool) (p : Paragraph) : Prop
  | flows (flows : Flows spaced p) (gap : p.gap ≠ some .none)
  | stands (stands : Stands spaced p) (breaks : Breaks p)

theorem flows_empty : Flows spaced {} :=
  ⟨fun _ _ _ h => h, .nil, fun _ => rfl⟩

theorem takes_empty : Takes spaced {} :=
  .flows flows_empty (fun h => by cases h)

theorem Breaks.addSeparator (h : Breaks p) (s : Separator) : Breaks (p.addSeparator s) := by
  obtain ⟨u, hu, hbreak⟩ := h
  obtain ⟨t, ht, _, _, hmono⟩ := p.gap_addSeparator s
  refine ⟨t, ht, ?_⟩
  rw [Separator.break_doc_iff] at hbreak ⊢
  exact Nat.le_trans hbreak (hmono u hu)

theorem breaks_addSeparator (p : Paragraph) (hs : Break s.doc) : Breaks (p.addSeparator s) := by
  obtain ⟨t, ht, _, hle, _⟩ := p.gap_addSeparator s
  refine ⟨t, ht, ?_⟩
  rw [Separator.break_doc_iff] at hs ⊢
  exact Nat.le_trans hs hle

theorem Breaks.gap_ne (h : Breaks p) : p.gap ≠ some .none := by
  obtain ⟨s, hs, hbreak⟩ := h
  rw [hs]
  rintro ⟨⟩
  cases hbreak

/-- What is done is a body so far, whatever comes after a line break. -/
theorem body_settle (h : Flows spaced p ∨ Stands spaced p) (hbreaks : Breaks p) (ps : List Doc)
    (hps : Body spaced .parts ps) : Body spaced .parts (p.settle.done.reverse ++ ps) := by
  obtain ⟨s, hs, hbreak⟩ := hbreaks
  rw [settle_of_gap_eq_some hs]
  rcases h with h | h
  · have hitem : Neat spaced .item [.concat p.item.reverse] := .concat h.item
    simpa using h.done _ _ hitem (.broken (.item hitem) hbreak hps)
  · obtain ⟨d, hd, hblock⟩ := h.item
    have hitem := h.done _ (.broken hblock hbreak hps)
    simpa [hd] using hitem

/-- What is done is a body so far, if neat content comes after it. -/
theorem Takes.done_settle (h : Takes spaced p) (c : Doc) (ps : List Doc) (hc : Neat spaced .item [c])
    (hps : Body spaced .parts (c :: ps)) : Body spaced .parts (p.settle.done.reverse ++ c :: ps) := by
  cases h with
  | stands stands breaks => exact body_settle (.inr stands) breaks _ hps
  | flows flows gap =>
    cases hgap : p.gap with
    | none =>
      rw [settle_of_gap_eq_none hgap]
      exact flows.done c ps hc hps
    | some s =>
      by_cases hbreak : Break s.doc
      · exact body_settle (.inl flows) ⟨s, hgap, hbreak⟩ _ hps
      · have hjoint : Joint true s.doc := Separator.joint_doc (fun hs => gap (hs ▸ hgap)) hbreak
        have hitem : Neat spaced .item [.concat p.item.reverse] := .concat flows.item
        rw [settle_of_gap_eq_some hgap]
        simpa using flows.done _ _ hitem (.joined hitem hjoint hc hps)

theorem Takes.item_settle (h : Takes spaced p) : Neat spaced .items p.settle.item.reverse := by
  cases hgap : p.gap with
  | some s =>
    rw [settle_of_gap_eq_some hgap]
    exact .nil
  | none =>
    rw [settle_of_gap_eq_none hgap]
    cases h with
    | flows flows _ => exact flows.item
    | stands _ breaks =>
      obtain ⟨s, hs, _⟩ := breaks
      cases hgap.symm.trans hs

/-- **Neat content flows on.** -/
theorem Takes.addContent (h : Takes spaced p) (hd : Neat spaced .item [d]) :
    Flows spaced (p.addContent d) := by
  refine ⟨h.done_settle, ?_, fun hnil => by cases hnil⟩
  rw [Paragraph.addContent, List.reverse_cons]
  exact neat_append_singleton h.item_settle hd

/-- **A block behind a line break stands.** -/
theorem stands_addContent (h : Flows spaced p ∨ Stands spaced p) (hbreaks : Breaks p)
    (hd : Body spaced .piece [.concat [d]]) : Stands spaced (p.addContent d) := by
  refine ⟨body_settle h hbreaks, d, ?_, hd⟩
  obtain ⟨s, hs, _⟩ := hbreaks
  rw [addContent, settle_of_gap_eq_some hs]

theorem stands_addContent_empty (hd : Body spaced .piece [.concat [d]]) :
    Stands spaced (({} : Paragraph).addContent d) :=
  ⟨fun _ h => h, d, rfl, hd⟩

theorem gap_addContent (p : Paragraph) (d : Doc) : (p.addContent d).gap = none :=
  gap_settle p

theorem Takes.addSeparator (h : Takes spaced p) (hs : s ≠ .none) : Takes spaced (p.addSeparator s) := by
  cases h with
  | stands stands breaks => exact .stands ⟨stands.done, stands.item⟩ (breaks.addSeparator s)
  | flows flows gap =>
    refine .flows ⟨flows.done, flows.item, flows.fresh⟩ ?_
    obtain ⟨t, ht, hold, _⟩ := p.gap_addSeparator s
    rw [ht]
    rintro ⟨⟩
    rcases hold with rfl | hold
    · exact hs rfl
    · exact gap hold

/-- **The fill of a body**, when content was the last to arrive. -/
theorem body_fillParts (h : Flows spaced p ∨ Stands spaced p) (hgap : p.gap = none) :
    Body spaced .parts p.fillParts := by
  rw [fillParts, settle_of_gap_eq_none hgap]
  rcases h with h | h
  · split
    · next hitem =>
      rw [h.fresh (List.isEmpty_iff.1 hitem)]
      exact .nil
    · have hitem : Neat spaced .item [.concat p.item.reverse] := .concat h.item
      simpa using h.done _ _ hitem (.last (.item hitem))
  · obtain ⟨d, hd, hblock⟩ := h.item
    simpa [hd] using h.done _ (.last hblock)

end Paragraph

end TexTidy.Print
