import TexTidy.Format
import TexTidy.Proofs.Definitions
import TexTidy.Proofs.Lockstep

/-!
# TexTidy.Proofs.UnusedEntries

Only names that occur in a source matter. Two registries that say the same about these names give the same document or
the same error, the same hints and the same formatted text, whatever else they know.

The parser looks up names at places of the source only, so its runs with the two registries go on in lockstep
(`document_eq_of_agreeOn`). Hints go by the names of commands and environments, and the name of a node is part of its
text, which is part of the text of the document (`Node.annotate_eq_of_agreeOn`).
-/

namespace TexTidy

variable {src : Bytes} {r r' : Registry}

/-! ## reading -/

/-- **The two parsers go on in lockstep.** -/
theorem Parse.document_eq_of_agreeOn (h : r.AgreeOn src r') : document r src = document r' src := by
  have hsame := (sequence_concur_of_agreeOn (c := .ofOffset src 0) h .text .document).same
  simp only [document, documentFrom, hsame]

/-! ## hints -/

/-- Hints go by the name that stands in the opening text. -/
theorem Registry.AgreeOn.hints {shape : Shape} (h : r.AgreeOn shape.opening r') : r.hints shape = r'.hints shape := by
  cases shape with
  | command escape name =>
    have hname : name <:+: (Shape.command escape name).opening := (List.suffix_append _ _).isInfix
    simp only [Registry.hints, h.command name hname]
  | environment name =>
    have hname : name <:+: (Shape.environment name).opening := ⟨_, _, rfl⟩
    simp only [Registry.hints, h.environment name hname]
  | mathEnvironment name =>
    have hname : name <:+: (Shape.mathEnvironment name).opening := ⟨_, _, rfl⟩
    simp only [Registry.hints, h.environment name hname]
  | _ => rfl

namespace Node

mutual

/-- The hints of a tree depend on the names in its text. -/
theorem annotate_eq_of_agreeOn : ∀ n : Node, r.AgreeOn n.raw r' → n.annotate r = n.annotate r'
  | .leaf s hints l, _ => by simp only [annotate]
  | .branch s hints shape args content, h => by
    rw [raw_branch] at h
    have hopening : r.AgreeOn shape.opening r' :=
      h.mono ⟨[], rawAll args ++ rawAll content ++ shape.closing, by simp⟩
    have hargs := annotateAll_eq_of_agreeOn args (h.mono ⟨shape.opening, rawAll content ++ shape.closing, by simp⟩)
    have hcontent := annotateAll_eq_of_agreeOn content (h.mono ⟨shape.opening ++ rawAll args, shape.closing, by simp⟩)
    simp only [annotate, hopening.hints, hargs, hcontent]

theorem annotateAll_eq_of_agreeOn : ∀ ns : List Node, r.AgreeOn (rawAll ns) r' → annotateAll r ns = annotateAll r' ns
  | [], _ => by simp only [annotateAll]
  | n :: ns, h => by
    rw [rawAll_cons] at h
    have hn := annotate_eq_of_agreeOn n (h.mono (List.prefix_append _ _).isInfix)
    have hns := annotateAll_eq_of_agreeOn ns (h.mono (List.suffix_append _ _).isInfix)
    simp only [annotateAll, hn, hns]

end

end Node

/-- The names in a document are names in its source. -/
theorem Parse.annotate_eq_of_agreeOn {tree : Node} (h : r.AgreeOn src r') (hdocument : document r src = .ok tree) :
    tree.annotate r = tree.annotate r' := by
  obtain ⟨body, hbody, rfl⟩ := derives_of_document hdocument
  refine Node.annotate_eq_of_agreeOn _ ?_
  simpa [Node.raw_branch, Shape.opening, Shape.closing, hbody.rawAll_document] using h

/-! ## formatting -/

namespace Format

theorem run_eq_of_agreeOn (h : r.AgreeOn src r') (options : Options) :
    run { options with registry := r } src = run { options with registry := r' } src := by
  unfold run
  dsimp only
  rw [← Parse.document_eq_of_agreeOn h]
  cases hdocument : Parse.document r src with
  | error e => rfl
  | ok tree =>
    simp only [Except.map, Parse.annotate_eq_of_agreeOn h hdocument]

/-- **Unused entries do not matter.** Let two registries have the same entry, or both none, for every command and every
    environment whose name occurs in the source. Then they give the same tree or the same error, the same hints for
    every node of the tree, and with equal options the same formatted text and the same report. -/
theorem unused_entries_do_not_matter (h : r.AgreeOn src r') :
    Parse.document r src = Parse.document r' src ∧
    (∀ tree, Parse.document r src = .ok tree → tree.annotate r = tree.annotate r') ∧
    ∀ options : Options,
      run { options with registry := r } src = run { options with registry := r' } src ∧
      format { options with registry := r } src = format { options with registry := r' } src := by
  refine ⟨Parse.document_eq_of_agreeOn h, fun tree htree => Parse.annotate_eq_of_agreeOn h htree, fun options => ?_⟩
  have hrun := run_eq_of_agreeOn h options
  exact ⟨hrun, congrArg (Except.map Result.text) hrun⟩

/-- Another definition of `\frac`, of which the source knows nothing. It is read twice, since the double dollar sign is
    never closed. -/
theorem unused_entries_do_not_matter_frac :
    ∃ r', Registry.builtin.define (bytes "frac") { verb := true } = (r', none) ∧
      Registry.builtin.isVerb (bytes "frac") = false ∧ r'.isVerb (bytes "frac") = true ∧
      (∃ tree, Parse.document .builtin (bytes "$$\\textbf\x7ba\x7d b") = .ok tree ∧
        Parse.document r' (bytes "$$\\textbf\x7ba\x7d b") = .ok tree ∧ tree.annotate .builtin = tree.annotate r') ∧
      format {} (bytes "$$\\textbf\x7ba\x7d b") = format { registry := r' } (bytes "$$\\textbf\x7ba\x7d b") := by
  have hnone : (Registry.builtin.define (bytes "frac") { verb := true }).2 = none := rfl
  obtain ⟨e, ⟨hspec, -⟩, hafter⟩ := Registry.after_define hnone
  have hagree : Registry.builtin.AgreeOn (bytes "$$\\textbf\x7ba\x7d b")
      { Registry.builtin with commands := (bytes "frac", e) :: Registry.builtin.commands } := by
    refine ⟨fun name hname => ?_, fun _ _ => rfl⟩
    have hne : name ≠ bytes "frac" := by
      rintro rfl
      exact absurd (hname.subset (by decide : (0x72 : UInt8) ∈ bytes "frac")) (by decide)
    rw [Registry.command?, Registry.command?, Definitions.find?_cons, if_neg hne]
  obtain ⟨hdocument, hhints, hformat⟩ := unused_entries_do_not_matter hagree
  obtain ⟨tree, htree⟩ := Parse.exists_ok_of_isOk
    (x := Parse.document .builtin (bytes "$$\\textbf\x7ba\x7d b")) (by decide +kernel)
  refine ⟨_, Prod.ext hafter hnone, by decide +kernel, ?_, ⟨tree, htree, hdocument ▸ htree, hhints tree htree⟩,
    (hformat {}).2⟩
  simp [Registry.isVerb, Registry.command?, Definitions.find?_cons, hspec]

end Format

end TexTidy
