import TexTidy.Proofs.Faithful

/-!
# TexTidy.Proofs.Structure

What formatting preserves. The output for a steady document is a spelling of the document (`spells_document`),
so it can be read again, and gives the same structure (`exists_document_of_format`).

* `format_keeps_structure`: no command and no environment gains or loses an argument, and nothing but white
  space and verbatim text of environments can change.
* `format_keeps_literals`: verbatim text stays as it is, byte for byte.
* `format_opens_hidden_formula`: of a document that is not steady the output may be no document.
-/

namespace TexTidy

open Bytes (ink)
open Layout (Writes writes_append)
open Node (Each annotateAll)
open Print (gapAtoms widened_of_writes endsInComment)

/-! ## the end of the output -/

theorem lineTail_of_isPrefix {k v : Bytes} (hv : SoftTail v) (hk : k <+: v) :
    LineTail (k ++ [Byte.newline]) := by
  rcases hv with hpads | ⟨p, y, rfl, hp⟩
  · exact ⟨k, [], rfl, fun b hb => hpads b (hk.subset hb)⟩
  · obtain ⟨rest, hsplit⟩ := hk
    rcases List.append_eq_append_iff.1 hsplit with ⟨q, rfl, -⟩ | ⟨q, rfl, hq⟩
    · exact ⟨k, [], rfl, fun b hb => hp b (List.mem_append_left _ hb)⟩
    · cases q with
      | nil => exact ⟨p, [], by simp, hp⟩
      | cons b q =>
        obtain ⟨rfl, -⟩ := List.cons.inj hq
        exact ⟨p, q ++ [Byte.newline], by simp, hp⟩

namespace Format

/-- Behind the last node there is at most white space and one more newline, unless a newline is the end of the
    last node. -/
theorem endLine_cases {x : Bytes} (hx : x = [] ∨ Stemmed x) (k : Bytes) :
    (∃ k', k' <+: k ∧ endLine (x ++ k) = x ++ k' ++ [Byte.newline]) ∨
      endLine (x ++ k) = x ∧ (x = [] ∨ x.getLast? = some Byte.newline) := by
  induction k using List.reverseRecOn with
  | nil =>
    rw [List.append_nil]
    rcases hx with rfl | ⟨a, b, rfl, hstem⟩
    · exact .inr ⟨rfl, .inl rfl⟩
    · by_cases hb : b = Byte.newline
      · -- the newline is the name of a command
        obtain ⟨a, rfl⟩ := List.getLast?_eq_some_iff.1 (hstem hb)
        rw [hb, endLine_concat_newline, endLine_concat (by decide)]
        exact .inr ⟨rfl, .inr (by simp)⟩
      · exact .inl ⟨[], List.nil_prefix, by rw [endLine_concat hb, List.append_nil]⟩
  | append_singleton k b ih =>
    rw [← List.append_assoc]
    by_cases hb : b = Byte.newline
    · rw [hb, endLine_concat_newline]
      exact ih.imp_left fun ⟨k', hk', hend⟩ => ⟨k', hk'.trans (List.prefix_append _ _), hend⟩
    · exact .inl ⟨k ++ [b], List.prefix_rfl, by rw [endLine_concat hb]; simp⟩

/-! ## the document -/

variable {keep : Bool}

/-- **The output for a steady document is a spelling of the document.** -/
theorem spells_document {r : Registry} {src : Bytes} {body : Parse.Sequence} (page : Layout.Page)
    (h : Parse.Derives r (.sequence .text .document (.ofOffset src 0) body))
    (hsteady : Node.Steady r keep
      ((Node.branch ⟨0, src.length⟩ {} .document [] body.nodes).annotate r)) :
    Spells r keep (.nodes {} (annotateAll r body.nodes)) (endLine
      (Node.print page ((Node.branch ⟨0, src.length⟩ {} .document [] body.nodes).annotate r))) := by
  obtain ⟨t, hwrites, hrender⟩ := page.writes_render
    (Print.doc page.measure ((Node.branch ⟨0, src.length⟩ {} .document [] body.nodes).annotate r))
  rw [Node.print, hrender]
  rw [Print.doc, Node.annotate, Print.nodeDoc, Print.atoms_paragraph, ← List.append_nil (Print.flow ..),
    ← List.append_nil ([] : Bytes)] at hwrites
  have hstart : Poised false none false true false {} [] [] [] (annotateAll r body.nodes) :=
    poised_start (fun _ => rfl) rfl rfl rfl (fun _ => .inr rfl) fun _ h => by cases h
  have hflow : Node.NodesFlow r keep (annotateAll r body.nodes) := h.flows
  obtain ⟨begun, gap, x, w, hrest, hx⟩ := hflow.enclosed
    (hsteady.steadyAll_content (by simp) rfl) hsteady.glue hstart hwrites
  obtain ⟨v, rfl, hv⟩ := widened_of_writes (show Writes (gapAtoms gap) ([] ++ x ++ w) t from hrest)
    hx.tight hx.white
  rw [List.nil_append]
  obtain ⟨kept, pads, rfl, -, hstrip⟩ := Text.stripEnd_append hx.tight v
  rw [List.nil_append] at hstrip
  rw [hstrip]
  have hwhite := hv.white
  rw [Bytes.ink_append, List.append_eq_nil_iff] at hwhite
  have hstem : x = [] ∨ Stemmed x := by
    cases hall : (annotateAll r body.nodes).all Node.isSpace with
    | true => exact .inl (hx.idle hall)
    | false => exact .inr (hx.solid hall)
  rcases endLine_cases hstem kept with ⟨k, hk, hend⟩ | ⟨hend, hlast⟩
  · rw [hend, List.append_assoc]
    refine hx.spells _ ?_ fun hcomment => ?_
    · have hkept := Bytes.ink_eq_nil_iff.1 hwhite.1
      have hink : ink k = [] := Bytes.ink_eq_nil_iff.2 fun b hb => hkept b (hk.subset hb)
      rw [Bytes.ink_append, hink]
      rfl
    · refine lineTail_of_isPrefix (hv.soft ?_) (hk.trans (List.prefix_append kept pads))
      rw [(hx.bare hcomment).1]
      exact softTail_nil
  · rw [hend, ← List.append_nil x]
    refine hx.spells [] rfl fun hcomment => absurd hlast (not_or.2 ⟨fun hnil => ?_, (hx.bare hcomment).2⟩)
    cases hall : (annotateAll r body.nodes).all Node.isSpace with
    | true =>
      rw [Print.endsInComment_all hall] at hcomment
      cases hcomment
    | false => exact (hx.solid hall).ne_nil hnil

/-- **Formatting keeps the structure of a steady document.** The output can be read again. Up to white space
    and what is verbatim in an environment, that gives the same tree; with `keep` it is the same there too. -/
theorem exists_document_of_format {options : Options} {src out : Bytes} {tree : Node}
    (hout : format options src = .ok out) (hsrc : Parse.document options.registry src = .ok tree)
    (hsteady : Node.Steady options.registry keep (tree.annotate options.registry)) :
    ∃ tree', Parse.document options.registry out = .ok tree' ∧ tree'.skeleton keep = tree.skeleton keep := by
  obtain ⟨tree', htree', rfl⟩ := exists_tree_of_format hout
  cases hsrc.symm.trans htree'
  obtain ⟨body, hbody, rfl⟩ := Parse.derives_of_document hsrc
  exact Parse.exists_document_of_spells hbody (spells_document _ hbody hsteady)

end Format

/-! ## verbatim text -/

/-- Verbatim text, with the name of what makes it verbatim. -/
inductive Literal where
  | verb (name delimiter content : Bytes)
  | verbatim (name body : Bytes)
  deriving DecidableEq

namespace Node

/-- The verbatim text that a node is. -/
def literal? : Node → Option Literal
  | .leaf _ _ (.verb _ name delimiter content) => some (.verb name delimiter content)
  | .branch _ _ (.verbatim name body) _ _ => some (.verbatim name body)
  | _ => none

/-- The verbatim text of a tree, in the order of the source. -/
def literals (n : Node) : List Literal :=
  n.preorder.filterMap literal?

theorem literal?_skeleton (n : Node) : (n.skeleton true).literal? = n.literal? := by
  cases n with
  | leaf s h l => cases l <;> rfl
  | branch s h shape args content => cases shape <;> rfl

theorem literals_of_isSpace {n : Node} (h : n.isSpace = true) : n.literals = [] := by
  unfold isSpace at h
  split at h
  · rfl
  · rfl
  · cases h

mutual

/-- The structure of a tree has all of its verbatim text. -/
theorem literals_skeleton : ∀ n : Node, (n.skeleton true).literals = n.literals
  | .leaf s h l => by cases l <;> rfl
  | .branch s h shape args content => by
    have hself := literal?_skeleton (.branch s h shape args content)
    have hargs := filterMap_skeletons args
    have hcontent := filterMap_skeletons content
    rw [skeleton] at hself ⊢
    rw [literals, literals, preorder, preorder, List.filterMap_cons, List.filterMap_cons, hself,
      List.filterMap_append, List.filterMap_append, hargs, hcontent]

theorem filterMap_skeletons : ∀ ns : List Node,
    (preorderAll (skeletons true ns)).filterMap literal? = (preorderAll ns).filterMap literal?
  | [] => rfl
  | n :: ns => by
    have hn := literals_skeleton n
    have hns := filterMap_skeletons ns
    rw [skeletons]
    split
    · next hspace =>
      have hnone := literals_of_isSpace hspace
      rw [literals] at hnone
      rw [hns, preorderAll, List.filterMap_append, hnone, List.nil_append]
    · rw [literals, literals] at hn
      rw [preorderAll, preorderAll, List.filterMap_append, List.filterMap_append, hn, hns]

end

end Node

namespace Format

/-- **Formatting keeps the structure of a steady document.** The output can be read again, and that gives the
    same tree, up to white space and the text of verbatim environments. -/
theorem format_keeps_structure {options : Options} {src out : Bytes} {tree : Node}
    (hout : format options src = .ok out) (hsrc : Parse.document options.registry src = .ok tree)
    (hsteady : Node.Steady options.registry false (tree.annotate options.registry)) :
    ∃ tree', Parse.document options.registry out = .ok tree' ∧ tree'.skeleton false = tree.skeleton false :=
  exists_document_of_format hout hsrc hsteady

/-- A document that was found to be steady can be formatted. -/
theorem exists_format_of_steady (keep : Bool) (src : Bytes)
    (h : ((Parse.document .builtin src).toOption.any fun tree =>
      decide (Node.Steady .builtin keep (tree.annotate .builtin))) = true) :
    ∃ out tree, format {} src = .ok out ∧ Parse.document .builtin src = .ok tree ∧
      Node.Steady .builtin keep (tree.annotate .builtin) := by
  cases htree : Parse.document .builtin src with
  | error e =>
    rw [htree] at h
    cases h
  | ok tree =>
    rw [htree] at h
    obtain ⟨out, hout⟩ : ∃ out, format {} src = .ok out := by
      rw [format, run, show Parse.document ({} : Options).registry src = .ok tree from htree]
      exact ⟨_, rfl⟩
    exact ⟨out, tree, hout, rfl, of_decide_eq_true h⟩

/-- A table with a comment and a rule, and a group over two lines. -/
theorem format_keeps_structure_table :
    ∃ src out tree tree', src = bytes
      "\\begin\x7btabular\x7d\x7bl\x7d% t\na &b\\\\ \\hline\n\\end\x7btabular\x7d\x7b\\it\n x\x7d" ∧
      format {} src = .ok out ∧ Parse.document .builtin src = .ok tree ∧
      Parse.document .builtin out = .ok tree' ∧ tree'.skeleton false = tree.skeleton false := by
  obtain ⟨out, tree, hout, htree, hsteady⟩ := exists_format_of_steady false (bytes
    "\\begin\x7btabular\x7d\x7bl\x7d% t\na &b\\\\ \\hline\n\\end\x7btabular\x7d\x7b\\it\n x\x7d")
    (by decide +kernel)
  obtain ⟨tree', htree', hskeleton⟩ := format_keeps_structure hout htree hsteady
  exact ⟨_, out, tree, tree', rfl, hout, htree, htree', hskeleton⟩

/-- A document that is steady but for a formula in front of verbatim text. The percent sign in that text hides the
    double dollar signs behind it from the formula, which is therefore empty. In the output they stand on other lines
    and close it. -/
theorem format_opens_hidden_formula :
    ∃ src out tree, src = bytes "\x7b\\begin\x7blstlisting\x7d[$$]%\\end\x7blstlisting\x7d\x7d $$b$$" ∧
      format {} src = .ok out ∧ Parse.document .builtin src = .ok tree ∧
      (tree.annotate .builtin).isSettled .builtin = true ∧
      Each (fun m => m.isGroup = true → Each (fun k => k.isLoose .builtin true = true) m) (tree.annotate .builtin) ∧
      Each (fun m => m.isUnglued = true) (tree.annotate .builtin) ∧
      ∀ tree', Parse.document .builtin out ≠ .ok tree' := by
  let src := bytes "\x7b\\begin\x7blstlisting\x7d[$$]%\\end\x7blstlisting\x7d\x7d $$b$$"
  have hsrc : ((Parse.document .builtin src).toOption.any fun tree =>
      (tree.annotate .builtin).isSettled .builtin &&
      decide (Each (fun m => m.isGroup = true → Each (fun k => k.isLoose .builtin true = true) m)
        (tree.annotate .builtin)) &&
      decide (Each (fun m => m.isUnglued = true) (tree.annotate .builtin))) = true := by decide +kernel
  have hout : ((format {} src).toOption.any fun out => (Parse.document .builtin out).toOption.isNone) = true := by
    decide +kernel
  cases htree : Parse.document .builtin src with
  | error e =>
    rw [htree] at hsrc
    cases hsrc
  | ok tree =>
    cases hformat : format {} src with
    | error e =>
      rw [hformat] at hout
      cases hout
    | ok out =>
      rw [htree] at hsrc
      rw [hformat] at hout
      simp only [Except.toOption, Option.any_some, Bool.and_eq_true, decide_eq_true_eq] at hsrc hout
      refine ⟨src, out, tree, rfl, hformat, htree, hsrc.1.1, hsrc.1.2, hsrc.2, fun tree' h => ?_⟩
      rw [h] at hout
      cases hout

/-- **Formatting keeps verbatim text.** In the output for a steady document every verbatim text stands as it
    was, byte for byte and in the same order. -/
theorem format_keeps_literals {options : Options} {src out : Bytes} {tree : Node}
    (hout : format options src = .ok out) (hsrc : Parse.document options.registry src = .ok tree)
    (hsteady : Node.Steady options.registry true (tree.annotate options.registry)) :
    ∃ tree', Parse.document options.registry out = .ok tree' ∧ tree'.literals = tree.literals := by
  obtain ⟨tree', htree', hskeleton⟩ := exists_document_of_format hout hsrc hsteady
  refine ⟨tree', htree', ?_⟩
  rw [← Node.literals_skeleton tree', hskeleton, Node.literals_skeleton]

/-- Verbatim text of both kinds in a group that is indented. -/
theorem format_keeps_literals_group :
    ∃ src out tree', src = bytes
      "\\begin\x7ba\x7d\x7b\\verb|b |\n\\begin\x7bverbatim\x7d\n b\n\\end\x7bverbatim\x7d\x7d\\end\x7ba\x7d" ∧
      format {} src = .ok out ∧ Parse.document .builtin out = .ok tree' ∧
      tree'.literals = [.verb (bytes "verb") (bytes "|") (bytes "b "),
        .verbatim (bytes "verbatim") (bytes "\n b\n")] := by
  obtain ⟨out, tree, hout, htree, hsteady⟩ := exists_format_of_steady true (bytes
    "\\begin\x7ba\x7d\x7b\\verb|b |\n\\begin\x7bverbatim\x7d\n b\n\\end\x7bverbatim\x7d\x7d\\end\x7ba\x7d")
    (by decide +kernel)
  have hliterals : (Parse.document .builtin (bytes
      "\\begin\x7ba\x7d\x7b\\verb|b |\n\\begin\x7bverbatim\x7d\n b\n\\end\x7bverbatim\x7d\x7d\\end\x7ba\x7d")
      ).toOption.map Node.literals = some [.verb (bytes "verb") (bytes "|") (bytes "b "),
        .verbatim (bytes "verbatim") (bytes "\n b\n")] := by decide +kernel
  rw [htree] at hliterals
  obtain ⟨tree', htree', hsame⟩ := format_keeps_literals hout htree hsteady
  exact ⟨_, out, tree', rfl, hout, htree', hsame.trans (Option.some.inj hliterals)⟩

end Format

end TexTidy
