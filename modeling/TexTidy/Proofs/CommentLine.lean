import TexTidy.Proofs.TableComment

/-!
# TexTidy.Proofs.CommentLine

A comment never swallows code. In the layout of a parsed document every comment is followed by the end of
its line, so on every page nothing but its own content stands behind its percent sign on that line.

The layout is one induction over trees, which follows the printer: a node guards its comments in any case
(`guards_nodeDoc`), while the steps of a sequence may leave the line of the last comment open, but only if
the sequence ends in a comment (`fences_flow`). Every container looks for just that and breaks the line
before it closes. What is written is an induction over the atoms: a line that has ended stays as it is
(`exists_of_writes`).
-/

namespace TexTidy

open Bytes (ink)
open Layout (Atom Doc)
open Node (Each All Sound Fenced Linked rawAll trim marks marksAll)

namespace Print

/-! ## what ends in a comment -/

theorem endsInComment_cons {n : Node} {ns : List Node} (h : endsInComment ns = true) :
    endsInComment (n :: ns) = true := by
  rw [endsInComment, Node.getLast?_trim] at *
  rw [List.reverse_cons, List.find?_append]
  cases hlast : ns.reverse.find? (fun n => !n.isSpace) with
  | none => simp [hlast] at h
  | some m => simpa [hlast] using h

/-- A comment with nothing but white space behind it. -/
theorem endsInComment_of_last {n : Node} {c : Comment} {ns : List Node} (hc : n.comment? = some c)
    (hns : ∀ m ∈ ns, m.isSpace = true) : endsInComment (n :: ns) = true := by
  have hn : n.isSpace = false := Node.isSpace_of_comment? hc
  have hnone : ns.reverse.find? (fun n => !n.isSpace) = none := by
    refine List.find?_eq_none.2 fun m hm => ?_
    simp [hns m (List.mem_reverse.1 hm)]
  rw [endsInComment, Node.getLast?_trim, List.reverse_cons, List.find?_append, hnone]
  simp [hn, hc]

theorem endsInComment_eq_false {ns : List Node} (h : ∀ n ∈ ns, n.comment? = none) :
    endsInComment ns = false := by
  rw [endsInComment, Node.getLast?_trim]
  cases hlast : ns.reverse.find? (fun n => !n.isSpace) with
  | none => rfl
  | some n => simp [h n (List.mem_reverse.1 (List.mem_of_find?_eq_some hlast))]

/-! ## parts -/

section

variable {ms ks : List Mark}

/-- A piece with ink in it is written as it is. -/
theorem rawDocs_append_cons (afterBreak : Bool) (qs rs : List Bytes) {p : Bytes}
    (hbreak : p ≠ [Byte.newline]) (hblank : p.all isLineBlank = false) :
    rawDocs afterBreak (qs ++ p :: rs) = rawDocs afterBreak qs ++ .text p :: rawDocs false rs := by
  induction qs generalizing afterBreak with
  | nil => simp [rawDocs, hbreak, hblank]
  | cons q qs ih =>
    rw [List.cons_append, rawDocs, rawDocs]
    split
    · rw [ih, List.cons_append]
    · split
      · exact ih false
      · rw [ih, List.cons_append]

theorem endsLine_rawDocs {rs : List Bytes} (h : BreaksPieces rs) (z : List Atom) :
    Atom.endsLine true (Doc.atomsAll (rawDocs false rs) ++ z) = true := by
  obtain ⟨rest, rfl | rfl⟩ := h <;> rfl

/-- Raw pieces that comments cut guard these comments. -/
theorem guards_rawDocs {ps : List Bytes} (h : ∀ m ∈ ms, m.Cuts ps) :
    Guards false ms (Doc.atomsAll (rawDocs false ps)) := by
  intro z _ m hm
  obtain ⟨qs, rs, rfl, hink, hbreaks⟩ := h m hm
  refine ⟨Doc.atomsAll (rawDocs false qs), [], m.comment.content, [],
    Doc.atomsAll (rawDocs false rs) ++ z, ?_, ?_, .inl rfl, .inr ⟨rfl, endsLine_rawDocs hbreaks z⟩⟩
  · have hbreak : Byte.percent :: m.comment.content ≠ [Byte.newline] := fun h => by cases h
    rw [rawDocs_append_cons false qs rs hbreak rfl]
    simp [Doc.atomsAll, Doc.atoms]
  · rw [Doc.inkAll_atomsAll, inkAll_rawDocs, hink]
    simp

theorem guards_delimited (opening closing : Bytes) {content : List Node} {body : Doc}
    (h : Guards (endsInComment content) ms body.atoms) :
    Guards false (ms.map (Mark.shift (ink opening))) (delimited opening closing content body).atoms := by
  have hbody : Guards false ms
      ((if endsInComment content then Doc.concat [body, .hardLine] else body).atoms) := by
    split
    · simpa [Doc.atoms, Doc.atomsAll] using h.close []
    · next hends =>
      rw [Bool.eq_false_iff.2 hends] at h
      exact h
  have hall := (hbody.concat [.text closing]).shift [.text opening]
  simpa [delimited, Doc.atoms, Doc.atomsAll, Atom.inkAll] using hall

/-- A block breaks the line behind its content. -/
theorem guards_block {opening body : Doc} (closing : Doc) {content : List Node}
    (hopening : Guards false ms opening.atoms) (hbody : Guards true ks body.atoms)
    (hempty : trim content = [] → ks = []) :
    Guards false (ms ++ ks.map (Mark.shift opening.ink)) (block opening closing content body).atoms := by
  rw [← Doc.inkAll_atoms]
  unfold block
  split
  · next htrim =>
    rw [hempty htrim]
    simpa [Doc.atoms, Doc.atomsAll] using hopening.concat (.hardLine :: closing.atoms)
  · dsimp only
    split
    · simpa [Doc.atoms, Doc.atomsAll] using hopening.append (hbody.close closing.atoms)
    · have hbelow := (hbody.close closing.atoms).shift [.hardLine]
      rw [show Atom.inkAll [.hardLine] = [] from rfl, Mark.map_shift_nil] at hbelow
      simpa [Doc.atoms, Doc.atomsAll] using hopening.append hbelow

theorem marksAll_of_trim_eq_nil {content : List Node} (h : trim content = []) : marksAll content = [] := by
  obtain ⟨front, back, hcontent, hfront, hback⟩ := Node.trim_eq content
  refine Node.marksAll_of_isSpace fun n hn => ?_
  rw [hcontent, h, List.append_nil] at hn
  exact (List.mem_append.1 hn).elim (hfront n) (hback n)

theorem guards_opening (marker : Bytes) {docs : List Doc} (h : Guards false ms (Doc.atomsAll docs)) :
    Guards false (ms.map (Mark.shift (ink marker))) (Doc.concat [.text marker, .concat docs]).atoms := by
  simpa [Doc.atoms, Doc.atomsAll, Atom.inkAll] using h.shift [.text marker]

/-- An environment, in columns or not, breaks the line before it closes. -/
theorem guards_environment (measure : Bytes → Nat) (hints : Hints) (marker : Bytes) (closing : Doc)
    {args content : List Node} {docs : List Doc} {body : Doc} (hsound : All Sound content)
    (hfenced : All Fenced content) (hargs : Guards false (marksAll args) (Doc.atomsAll docs))
    (hink : Doc.inkAll docs = ink (rawAll args)) (hbody : Guards true (marksAll content) body.atoms) :
    Guards false ((marksAll args).map (Mark.shift (ink marker)) ++
        (marksAll content).map (Mark.shift (ink marker ++ ink (rawAll args))))
      (if isTable hints content then Doc.concat [.concat [.text marker, .concat docs],
        tableDoc measure args content, .hardLine, closing]
      else block (.concat [.text marker, .concat docs]) closing content body).atoms := by
  have hopening := guards_opening marker hargs
  have hfront : (Doc.concat [.text marker, .concat docs]).ink = ink marker ++ ink (rawAll args) := by
    simp [Doc.ink, Doc.inkAll, hink]
  rw [← hfront]
  split
  · next htable =>
    have hgrid := (Bool.and_eq_true_iff.1 htable).2
    have hrows := (guards_tableDoc measure args hsound hfenced hgrid).close closing.atoms
    rw [← Doc.inkAll_atoms]
    simpa [Doc.atoms, Doc.atomsAll] using hopening.append hrows
  · exact guards_block closing hopening hbody marksAll_of_trim_eq_nil

end

/-! ## steps -/

/-- A comment leaves its line open if nothing follows, or if a paragraph break does. -/
theorem fences_commentSteps (c : Comment) (before : Bool) (next : Option Node) :
    Fences (!(next.isSome && !before)) [⟨[], c⟩] (commentSteps c before next) := by
  unfold commentSteps
  dsimp only
  have hfirst : Fences true [⟨[], c⟩] (if c.sameLine then
      [.content (.text ((if c.leading.isEmpty then [] else [Byte.space]) ++ commentText c))]
      else [.unlessEmpty .forced, .content (.text (commentText c))]) := by
    split
    · exact fences_content (guards_commentText (by simpa using ink_shift c.leading []) c)
    · have hbare : Guards true [⟨[], c⟩] (Doc.text (commentText c)).atoms :=
        guards_commentText Bytes.ink_nil c
      exact (fences_content hbare).shift [.unlessEmpty .forced]
  cases hnext : next.isSome && !before with
  | true => exact hfirst.concat fun _ => seals_separator rfl false []
  | false => exact (List.append_nil _).symm ▸ hfirst

theorem fences_nodeSteps (mode : Mode) (preamble : Bool) (previous next : Option Node) {n : Node}
    {own : List Step} (hcomment : n.comment? = none) (hown : Fences false n.marks own) :
    Fences false n.marks (nodeSteps mode preamble previous next n own) := by
  unfold nodeSteps
  split
  · exact fences_nil _ _
  · exact fences_nil _ _
  · cases hcomment
  · have hbefore : ∀ p : Bool, inkOf (if p then [Step.unlessEmpty .forced] else []) = [] := by
      intro p
      cases p <;> rfl
    have hbreak : inkOf (if isInline mode n then [] else formulaBreak mode previous n) = [] := by
      split
      · rfl
      · exact inkOf_formulaBreak mode previous n
    have hall := hown.shift ((if n.standsAlone || (n.command?.isSome && n.hints.breakBefore) then
      [.unlessEmpty .forced] else []) ++ (if isInline mode n then [] else formulaBreak mode previous n))
    rw [inkOf_append, hbefore, hbreak] at hall
    rwa [List.append_nil, Mark.map_shift_nil] at hall

/-- The first node of a sequence brings its ink. -/
theorem inkOf_head (measure : Bytes → Nat) (mode : Mode) (preamble trim inked : Bool)
    (previous : Option Node) {n : Node} {ns : List Node} (h : All Sound (n :: ns)) :
    inkOf (if trim && n.isSpace && (!inked || ns.all Node.isSpace) then []
      else nodeSteps mode preamble (present previous) (present ns.head?) n
        (if isInline mode n then inlineSteps measure mode n else [.content (nodeDoc measure mode n)])) =
      ink n.raw := by
  have hflow := inkOf_flow measure mode preamble trim inked previous (n :: ns) h
  rw [flow, inkOf_append, inkOf_flow _ _ _ _ _ _ ns (Node.all_cons_iff.1 h).2, Node.rawAll_cons,
    Bytes.ink_append] at hflow
  exact List.append_cancel_right hflow

/-- No place in a sequence is empty. -/
theorem present_head? {ns : List Node} (h : All Fenced ns) : present ns.head? = ns.head? := by
  cases ns with
  | nil => rfl
  | cons n ns =>
    have hn := (Node.all_cons_iff.1 h).1.self
    have hpresent : n.isMissing = false := by
      unfold Node.isMissing
      split
      · cases hn
      · rfl
    simp [present, hpresent]

/-- The line of a comment ends behind the comment, or the sequence ends in it. -/
theorem seals_flow (measure : Bytes → Nat) (mode : Mode) (preamble trim : Bool)
    (previous : Option Node) {closed before : Bool} {s : Span} {hints : Hints} {c : Comment}
    {ns : List Node} (hfenced : All Fenced ns)
    (hleads : (Node.leaf s hints (.comment c before)).Leads closed ns)
    (hopen : (!((present ns.head?).isSome && !before)) = true) :
    Seals (endsInComment (.leaf s hints (.comment c before) :: ns))
      (flow measure mode preamble trim true previous ns) := by
  rw [present_head? hfenced] at hopen
  cases ns with
  | nil =>
    rw [endsInComment_of_last (n := .leaf s hints (.comment c before)) rfl (by simp)]
    exact seals_nil
  | cons p ps =>
    have hpar : p.isParbreak = true := hleads.1 (by simpa using hopen)
    unfold Node.isParbreak at hpar
    split at hpar
    · next s' hints' raw =>
      rw [flow]
      split
      · next htrim =>
        -- All that is left is white space, and it is trimmed.
        have hspace : ∀ n ∈ ps, n.isSpace = true := by simpa using (Bool.and_eq_true_iff.1 htrim).2
        have htrim : trim = true := by simp_all
        rw [endsInComment_of_last (n := .leaf s hints (.comment c before)) rfl
          (List.forall_mem_cons.2 ⟨rfl, hspace⟩), htrim, flow_of_isSpace _ _ _ _ _ hspace]
        exact seals_nil
      · exact seals_separator rfl _ _
    · cases hpar

/-! ## trees -/

/-- The marks of an argument are those of its content, behind its opening. -/
theorem marks_argument {s : Span} {hints : Hints} {space opening closing : Bytes}
    {args content : List Node}
    (h : (Node.branch s hints (.argument space opening closing) args content).Sound) :
    (Node.branch s hints (.argument space opening closing) args content).marks =
      (marksAll content).map (Mark.shift (ink opening)) := by
  obtain ⟨hargs, hspace, -⟩ := h
  simp [marks, hargs, marksAll, Shape.opening, hspace]

mutual

/-- **The layout of a fenced node guards its comments.** -/
theorem guards_nodeDoc (measure : Bytes → Nat) (mode : Mode) : ∀ n : Node, Each Sound n →
    Each Fenced n → n.comment? = none → Guards false n.marks (nodeDoc measure mode n).atoms
  | .leaf s hints l, _, _, hcomment => by
    cases l with
    | comment c before => cases hcomment
    | _ => exact guards_nil _ _
  | .branch _ _ .document _ _, _, hfenced, _ => (Node.each_branch_iff.1 hfenced).1.1.elim
  | .branch s hints .group args content, hsound, hfenced, hcomment => by
    rw [nodeDoc, Doc.atoms]
    exact guards_rawDocs (Node.cuts_rawPieces _ hsound hfenced hcomment)
  | .branch _ _ (.argument space opening closing) args content, hsound, hfenced, _ => by
    obtain ⟨hself, -, hcontent⟩ := Node.each_branch_iff.1 hsound
    obtain ⟨⟨hbare, -, hlinked⟩, -, hfcontent⟩ := Node.each_branch_iff.1 hfenced
    have hbody := guards_paragraph
      (fences_flow measure mode false false false none content hcontent hfcontent hlinked)
    rw [nodeDoc, marks_argument hself]
    split
    · next hopening =>
      have hopening := List.isEmpty_iff.1 hopening
      rw [endsInComment_eq_false (hbare hopening)] at hbody
      rw [hopening, Bytes.ink_nil, Mark.map_shift_nil]
      split
      · exact hbody
      · have hshift := hbody.shift [.text [Byte.space]]
        simpa [Doc.atoms, Doc.atomsAll, Atom.inkAll, Mark.map_shift_nil] using hshift
    · exact guards_delimited opening closing hbody
  | .branch _ hints (.command escape name) args content, hsound, hfenced, _ => by
    obtain ⟨hcontent, hsargs, -⟩ := Node.each_branch_iff.1 hsound
    obtain ⟨⟨-, hargs, -⟩, hfargs, -⟩ := Node.each_branch_iff.1 hfenced
    have hdoc := guards_opening (escape ++ name)
      (guards_nodeDocs measure (argumentMode hints mode) args hsargs hfargs hargs)
    rw [nodeDoc, marks, show content = [] from hcontent]
    split <;> simpa [marksAll, Shape.opening, Doc.atoms] using hdoc
  | .branch _ hints (.environment name) args content, hsound, hfenced, _ => by
    obtain ⟨-, hsargs, hcontent⟩ := Node.each_branch_iff.1 hsound
    obtain ⟨⟨-, hargs, hlinked⟩, hfargs, hfcontent⟩ := Node.each_branch_iff.1 hfenced
    have hbody := guards_paragraph
      (fences_flow measure mode false true false none content hcontent hfcontent hlinked)
    rw [nodeDoc, marks]
    exact guards_environment measure hints (Cursor.beginMarker name) _ hcontent hfcontent
      (guards_nodeDocs measure mode args hsargs hfargs hargs) (inkAll_nodeDocs measure mode args hsargs)
      (hbody.weaken fun _ => rfl)
  | .branch _ hints (.mathEnvironment name) args content, hsound, hfenced, _ => by
    obtain ⟨-, hsargs, hcontent⟩ := Node.each_branch_iff.1 hsound
    obtain ⟨⟨-, hargs, hlinked⟩, hfargs, hfcontent⟩ := Node.each_branch_iff.1 hfenced
    have hbody := guards_paragraph
      (fences_flow measure .math false true false none content hcontent hfcontent hlinked)
    rw [nodeDoc, marks]
    exact guards_environment measure hints (Cursor.beginMarker name) _ hcontent hfcontent
      (guards_nodeDocs measure .math args hsargs hfargs hargs) (inkAll_nodeDocs measure .math args hsargs)
      (hbody.weaken fun _ => rfl)
  | .branch _ _ (.verbatim name body) args content, hsound, hfenced, _ => by
    obtain ⟨hcontent, hsargs, -⟩ := Node.each_branch_iff.1 hsound
    obtain ⟨⟨-, hargs, -⟩, hfargs, -⟩ := Node.each_branch_iff.1 hfenced
    have hopening := guards_opening (Cursor.beginMarker name)
      (guards_nodeDocs measure mode args hsargs hfargs hargs)
    rw [nodeDoc, marks, show content = [] from hcontent]
    simpa [marksAll, Shape.opening, Doc.atoms, Doc.atomsAll] using
      hopening.concat [.text body, .text (Cursor.endMarker name)]
  | .branch _ _ (.displayMath opening closing) args content, hsound, hfenced, _ => by
    obtain ⟨hargs, -, hcontent⟩ := Node.each_branch_iff.1 hsound
    obtain ⟨⟨-, -, hlinked⟩, -, hfcontent⟩ := Node.each_branch_iff.1 hfenced
    have hbody := guards_paragraph
      (fences_flow measure .math false true false none content hcontent hfcontent hlinked)
    have hblock := guards_block (.text closing) (guards_nil false (Doc.text opening).atoms)
      (hbody.weaken fun _ => rfl) marksAll_of_trim_eq_nil
    rw [nodeDoc, marks, show args = [] from hargs]
    simpa [marksAll, Shape.opening, Doc.ink] using hblock
  | .branch _ _ (.inlineMath opening closing) args content, hsound, hfenced, _ => by
    obtain ⟨⟨hargs, -⟩, -, hcontent⟩ := Node.each_branch_iff.1 hsound
    obtain ⟨⟨-, -, hlinked⟩, -, hfcontent⟩ := Node.each_branch_iff.1 hfenced
    have hbody := guards_paragraph
      (fences_flow measure .math false false false none content hcontent hfcontent hlinked)
    rw [nodeDoc, marks, hargs]
    split
    · next hplain =>
      have hspace : ∀ n ∈ content, n.isSpace = true := fun n hn =>
        Node.isSpace_of_isPlainSpace (List.all_eq_true.1 hplain n hn)
      rw [Node.marksAll_of_isSpace hspace]
      exact guards_nil _ _
    · simpa [marksAll, Shape.opening] using guards_delimited opening closing hbody

theorem guards_nodeDocs (measure : Bytes → Nat) (mode : Mode) : ∀ ns : List Node, All Sound ns →
    All Fenced ns → (∀ n ∈ ns, n.comment? = none) →
    Guards false (marksAll ns) (Doc.atomsAll (nodeDocs measure mode ns))
  | [], _, _, _ => guards_nil _ _
  | n :: ns, hsound, hfenced, hcomment => by
    obtain ⟨hn, hns⟩ := Node.all_cons_iff.1 hsound
    obtain ⟨hfn, hfns⟩ := Node.all_cons_iff.1 hfenced
    obtain ⟨hhead, htail⟩ := List.forall_mem_cons.1 hcomment
    have hall := (guards_nodeDoc measure mode n hn hfn hhead).append
      (guards_nodeDocs measure mode ns hns hfns htail)
    rwa [Doc.inkAll_atoms, ink_nodeDoc measure mode n hn] at hall

/-- The steps of a sequence leave the line of a comment open only if the sequence ends in the comment. -/
theorem fences_flow (measure : Bytes → Nat) (mode : Mode) (preamble trim inked : Bool)
    (previous : Option Node) {closed : Bool} : ∀ ns : List Node, All Sound ns → All Fenced ns →
      Linked closed ns → Fences (endsInComment ns) (marksAll ns)
        (flow measure mode preamble trim inked previous ns)
  | [], _, _, _ => fences_nil _ _
  | n :: ns, hsound, hfenced, hlinked => by
    obtain ⟨hn, hns⟩ := Node.all_cons_iff.1 hsound
    obtain ⟨hfn, hfns⟩ := Node.all_cons_iff.1 hfenced
    have htail := (fences_flow measure mode preamble trim (inked || !n.isSpace) (some n) ns hns hfns
      hlinked.2).weaken (endsInComment_cons (n := n))
    rw [flow, marksAll, ← inkOf_head measure mode preamble trim inked previous hsound]
    cases hcomment : n.comment? with
    | none =>
      have hown : Fences false n.marks (if isInline mode n then inlineSteps measure mode n
          else [.content (nodeDoc measure mode n)]) := by
        split
        · next hinline =>
          exact fences_inlineSteps measure mode n hn hfn (isSome_command?_of_isInline hinline)
        · exact fences_content (guards_nodeDoc measure mode n hn hfn hcomment)
      have hhead : Fences false n.marks (if trim && n.isSpace && (!inked || ns.all Node.isSpace) then []
          else nodeSteps mode preamble (present previous) (present ns.head?) n
            (if isInline mode n then inlineSteps measure mode n
              else [.content (nodeDoc measure mode n)])) := by
        split
        · next htrim =>
          rw [Node.marks_of_isSpace (by simp_all)]
          exact fences_nil _ _
        · exact fences_nodeSteps mode preamble _ _ hcomment hown
      exact hhead.append htail (by simp)
    | some c =>
      unfold Node.comment? at hcomment
      split at hcomment
      · next s hints c' before =>
        cases hcomment
        have hinked : (inked || !(Node.leaf s hints (.comment c before)).isSpace) = true :=
          Bool.or_true inked
        rw [if_neg (by simp [Node.isSpace]), hinked]
        rw [hinked] at htail
        exact (fences_commentSteps c before (present ns.head?)).append htail
          (seals_flow measure mode preamble trim _ hfns hlinked.1)
      · cases hcomment

theorem fences_inlineSteps (measure : Bytes → Nat) (mode : Mode) : ∀ n : Node, Each Sound n →
    Each Fenced n → n.command?.isSome = true → Fences false n.marks (inlineSteps measure mode n)
  | .branch _ hints (.command escape name) args content, hsound, hfenced, _ => by
    obtain ⟨hcontent, hsargs, -⟩ := Node.each_branch_iff.1 hsound
    obtain ⟨⟨-, hargs, -⟩, hfargs, -⟩ := Node.each_branch_iff.1 hfenced
    have hsteps := (fences_argumentSteps measure (argumentMode hints mode) args hsargs hfargs hargs).shift
      [.content (.text (escape ++ name))]
    rw [marks, show content = [] from hcontent]
    simpa [marksAll, Shape.opening, inlineSteps, Step.ink, Doc.ink] using hsteps

theorem fences_argumentSteps (measure : Bytes → Nat) (mode : Mode) : ∀ ns : List Node,
    All Sound ns → All Fenced ns → (∀ n ∈ ns, n.comment? = none) →
    Fences false (marksAll ns) (argumentSteps measure mode ns)
  | [], _, _, _ => fences_nil _ _
  | n :: ns, hsound, hfenced, hcomment => by
    obtain ⟨hn, hns⟩ := Node.all_cons_iff.1 hsound
    obtain ⟨hfn, hfns⟩ := Node.all_cons_iff.1 hfenced
    obtain ⟨hhead, htail⟩ := List.forall_mem_cons.1 hcomment
    have htail := fences_argumentSteps measure mode ns hns hfns htail
    rw [argumentSteps, marksAll]
    split
    · next hdelimited =>
      rw [← inkOf_delimitedSteps measure mode n hn hdelimited]
      exact (fences_delimitedSteps measure mode n hn hfn hdelimited).append htail (by simp)
    · have hdoc := fences_content (guards_nodeDoc measure mode n hn hfn hhead)
      simpa [Step.ink, ink_nodeDoc measure mode n hn] using hdoc.append htail (by simp)

theorem fences_delimitedSteps (measure : Bytes → Nat) (mode : Mode) : ∀ n : Node, Each Sound n →
    Each Fenced n → isDelimitedArgument n = true → Fences false n.marks (delimitedSteps measure mode n)
  | .branch _ _ (.argument space opening closing) args content, hsound, hfenced, _ => by
    obtain ⟨hself, -, hcontent⟩ := Node.each_branch_iff.1 hsound
    obtain ⟨⟨-, -, hlinked⟩, -, hfcontent⟩ := Node.each_branch_iff.1 hfenced
    have hbody := fences_flow measure mode false false false none content hcontent hfcontent hlinked
    have hclosed : Fences false (marksAll content)
        (flow measure mode false false false none content ++
          ((if endsInComment content then [.separator .forced] else []) ++ [.content (.text closing)])) := by
      refine hbody.concat fun hends => ?_
      rw [if_pos hends]
      exact seals_separator rfl false _
    rw [marks_argument hself]
    simpa [delimitedSteps, Step.ink, Doc.ink] using hclosed.shift [.content (.text opening)]

end

end Print

/-! ## lines -/

namespace Bytes

/-- The first line of a text, without the blanks at its end. -/
def lineText (s : Bytes) : Bytes :=
  trimEnd isLineBlank (s.takeWhile (· != Byte.newline))

theorem exists_eq_trimEnd_append (drop : UInt8 → Bool) (s : Bytes) :
    ∃ w, s = trimEnd drop s ++ w ∧ ∀ b ∈ w, drop b = true := by
  refine ⟨(s.reverse.takeWhile drop).reverse, ?_, fun b hb => ?_⟩
  · rw [trimEnd, ← List.reverse_append, List.takeWhile_append_dropWhile, List.reverse_reverse]
  · exact List.all_eq_true.1 List.all_takeWhile b (List.mem_reverse.1 hb)

theorem lineText_append_newline (s w : Bytes) : lineText (s ++ Byte.newline :: w) = lineText s := by
  have hline : (s ++ Byte.newline :: w).takeWhile (· != Byte.newline) =
      s.takeWhile (· != Byte.newline) := by
    induction s with
    | nil => rfl
    | cons b s ih => simp only [List.cons_append, List.takeWhile_cons, ih]
  rw [lineText, hline, lineText]

/-- A line that has ended stays as it is. -/
theorem lineText_append_of_mem {s : Bytes} (h : Byte.newline ∈ s) (w : Bytes) :
    lineText (s ++ w) = lineText s := by
  obtain ⟨a, b, rfl⟩ := List.append_of_mem h
  rw [List.append_assoc, List.cons_append, lineText_append_newline, lineText_append_newline]

/-- The first line of a text that is one line. -/
theorem lineText_of_not_mem {s : Bytes} (h : Byte.newline ∉ s) : lineText s = trimEnd isLineBlank s := by
  have hline : s.takeWhile (· != Byte.newline) = s := by
    refine List.takeWhile_eq_self_iff.2 fun b hb => ?_
    simpa using fun heq : b = Byte.newline => h (heq ▸ hb)
  rw [lineText, hline]

/-- Blanks at the end of a line do not count. -/
theorem lineText_append_blank (s : Bytes) {w : Bytes} (hw : ∀ b ∈ w, isLineBlank b = true) :
    lineText (s ++ w) = lineText s := by
  by_cases h : Byte.newline ∈ s
  · exact lineText_append_of_mem h w
  · have hnone : Byte.newline ∉ s ++ w := by
      intro hmem
      rcases List.mem_append.1 hmem with hmem | hmem
      · exact h hmem
      · cases hw _ hmem
    rw [lineText_of_not_mem hnone, lineText_of_not_mem h, trimEnd_append s hw]

theorem lineText_append_return (s : Bytes) : lineText (s ++ [Byte.carriageReturn]) = lineText s := by
  refine lineText_append_blank s fun b hb => ?_
  rw [List.mem_singleton.1 hb]
  rfl

theorem lineText_append_breaksLine (s : Bytes) {t : Bytes} (h : BreaksLine t) :
    lineText (s ++ t) = lineText s := by
  obtain ⟨y, rfl | rfl⟩ := h
  · exact lineText_append_newline s y
  · rw [List.append_cons, lineText_append_newline, lineText_append_return]

end Bytes

open Bytes (lineText)

theorem isLineBlank_of_isPad {b : UInt8} (h : isPad b = true) : isLineBlank b = true := by
  simp [isLineBlank, h]

namespace Layout

/-! ## writings -/

theorem ink_broken (indent : Nat) (s : Bytes) : ink (broken indent s) = ink s := by
  rw [broken, Bytes.ink_append, Bytes.ink_cons_of_blank (by decide), Bytes.ink_spaces,
    Text.ink_stripEnd fun _ => Bytes.isBlank_of_isPad, List.append_nil]

theorem ink_writes {as : List Atom} {s t : Bytes} (h : Writes as s t) :
    ink t = ink s ++ Atom.inkAll as := by
  induction as generalizing s with
  | nil =>
    rw [show t = s from h]
    simp [Atom.inkAll]
  | cons a as ih =>
    cases a with
    | text w => simp [ih h, Atom.inkAll]
    | line =>
      rcases h with h | ⟨indent, h⟩
      · simp [ih h, Atom.inkAll]
      · rw [ih h, ink_broken, Atom.inkAll]
        simp
    | softLine =>
      rcases h with h | ⟨indent, h⟩
      · simp [ih h, Atom.inkAll]
      · rw [ih h, ink_broken, Atom.inkAll]
        simp
    | hardLine =>
      obtain ⟨indent, h⟩ := h
      rw [ih h, ink_broken, Atom.inkAll]
      simp

/-- A line break does not reach back to a percent sign, and it ends the line. -/
theorem exists_broken (indent : Nat) (f q : Bytes) : ∃ q', broken indent (f ++ Byte.percent :: q) =
    f ++ Byte.percent :: q' ∧ Byte.newline ∈ q' ∧ lineText q' = lineText q := by
  obtain ⟨kept, pads, hstrip, rfl, hpads⟩ :=
    Text.exists_stripEnd_append (show isPad Byte.percent = false from rfl) f q
  refine ⟨kept ++ Byte.newline :: Bytes.spaces indent, by simp [broken, hstrip], by simp, ?_⟩
  rw [Bytes.lineText_append_newline,
    Bytes.lineText_append_blank kept fun b hb => isLineBlank_of_isPad (hpads b hb)]

/-- **What stands behind a percent sign on its line stays there**, if the line has ended or ends next. -/
theorem exists_of_writes {as : List Atom} {f q t : Bytes} (h : Writes as (f ++ Byte.percent :: q) t)
    (hends : Byte.newline ∈ q ∨ ∃ return?, Atom.endsLine return? as = true) :
    ∃ q', t = f ++ Byte.percent :: q' ∧ lineText q' = lineText q := by
  induction as generalizing q with
  | nil => exact ⟨q, h, rfl⟩
  | cons a as ih =>
    have hbroken : ∀ {indent}, Writes as (broken indent (f ++ Byte.percent :: q)) t →
        ∃ q', t = f ++ Byte.percent :: q' ∧ lineText q' = lineText q := by
      intro indent h
      obtain ⟨q', hq', hmem, hline⟩ := exists_broken indent f q
      rw [hq'] at h
      exact hline ▸ ih h (.inl hmem)
    have happend : ∀ {w}, Writes as (f ++ Byte.percent :: q ++ w) t → lineText (q ++ w) = lineText q →
        (Byte.newline ∈ q ++ w ∨ ∃ return?, Atom.endsLine return? as = true) →
        ∃ q', t = f ++ Byte.percent :: q' ∧ lineText q' = lineText q := by
      intro w h hline hends
      rw [List.append_assoc, List.cons_append] at h
      exact hline ▸ ih h hends
    cases a with
    | text w =>
      rcases hends with hmem | ⟨return?, hends⟩
      · exact happend h (Bytes.lineText_append_of_mem hmem w) (.inl (by simp [hmem]))
      · rw [Atom.endsLine] at hends
        split at hends
        · next hempty =>
          rw [List.isEmpty_iff.1 hempty] at h
          exact happend h (by simp) (.inr ⟨_, hends⟩)
        · split at hends
          · next hreturn =>
            have hw : w = [Byte.carriageReturn] := by simpa using (Bool.and_eq_true_iff.1 hreturn).2
            rw [hw] at h
            exact happend h (Bytes.lineText_append_return q) (.inr ⟨_, hends⟩)
          · cases hends
    | line =>
      have hmem := hends.resolve_right (by simp [Atom.endsLine])
      rcases h with h | ⟨indent, h⟩
      · exact happend h (Bytes.lineText_append_of_mem hmem _) (.inl (by simp [hmem]))
      · exact hbroken h
    | softLine =>
      have hmem := hends.resolve_right (by simp [Atom.endsLine])
      rcases h with h | ⟨indent, h⟩
      · exact ih h (.inl hmem)
      · exact hbroken h
    | hardLine =>
      obtain ⟨indent, h⟩ := h
      exact hbroken h

end Layout

/-- The comment of a mark is in a text, and nothing but its content is behind its percent sign on the
    line, up to blanks at the end. -/
def Mark.Written (t : Bytes) (m : Mark) : Prop :=
  ∃ f q, t = f ++ Byte.percent :: q ∧ ink f = m.before ∧
    lineText q = m.comment.content.trimEnd isLineBlank

/-- A comment that is shown is written, wherever lines are broken. -/
theorem Mark.Shown.written {as : List Atom} {t : Bytes} {m : Mark} (h : m.Shown as)
    (hline : Byte.newline ∉ m.comment.content) (hwrites : Layout.Writes as [] t) : m.Written t := by
  obtain ⟨front, left, body, right, after, rfl, hink, hbody, hends⟩ := h
  obtain ⟨u, hfront, hrest⟩ := Layout.writes_append.1 hwrites
  have hbodyLine : lineText body = m.comment.content.trimEnd isLineBlank := by
    obtain ⟨w, hsplit, hw⟩ := Bytes.exists_eq_trimEnd_append isLineBlank m.comment.content
    rw [← Bytes.lineText_of_not_mem hline]
    rcases hbody with rfl | rfl
    · rfl
    · conv => rhs; rw [hsplit]
      exact (Bytes.lineText_append_blank _ hw).symm
  have hright : lineText (body ++ right) = lineText body := by
    rcases hends with hbreaks | ⟨rfl, -⟩
    · exact Bytes.lineText_append_breaksLine body hbreaks
    · rw [List.append_nil]
  have hrest : Layout.Writes after (u ++ left ++ Byte.percent :: (body ++ right)) t := by
    rw [List.append_assoc]
    exact hrest
  obtain ⟨q, hq, hqline⟩ := Layout.exists_of_writes hrest (hends.imp
    (fun hbreaks => List.mem_append_right _ hbreaks.mem) fun hafter => ⟨true, hafter.2⟩)
  refine ⟨u ++ left, q, hq, ?_, hqline.trans (hright.trans hbodyLine)⟩
  rw [Bytes.ink_append, Layout.ink_writes hfront, ← hink]
  rfl

theorem Mark.Written.stripEnd {t : Bytes} {m : Mark} (h : m.Written t) :
    m.Written (Text.stripEnd isPad t) := by
  obtain ⟨f, q, rfl, hink, hline⟩ := h
  obtain ⟨kept, pads, hstrip, rfl, hpads⟩ :=
    Text.exists_stripEnd_append (show isPad Byte.percent = false from rfl) f q
  refine ⟨f, kept, hstrip, hink, ?_⟩
  rw [← hline, Bytes.lineText_append_blank kept fun b hb => isLineBlank_of_isPad (hpads b hb)]

theorem Mark.Written.endLine {t : Bytes} {m : Mark} (h : m.Written t) : m.Written (Format.endLine t) := by
  obtain ⟨f, q, rfl, hink, hline⟩ := h
  obtain ⟨w, hsplit, hw⟩ :=
    Bytes.exists_eq_trimEnd_append (· == Byte.newline) (f ++ Byte.percent :: q)
  obtain ⟨kept, hkept, rfl⟩ := Bytes.exists_of_append_eq hsplit fun hmem => by cases hw _ hmem
  refine ⟨f, kept ++ [Byte.newline], ?_, hink, ?_⟩
  · rw [Format.endLine, hkept, if_neg (by simp)]
    simp
  · rw [← hline, Bytes.lineText_append_newline]
    cases w with
    | nil => rw [List.append_nil]
    | cons b w =>
      rw [show b = Byte.newline by simpa using hw b (by simp), Bytes.lineText_append_newline]

/-! ## documents -/

namespace Format

/-- Every comment of a document has a mark, with the ink of the source before its percent sign. -/
theorem exists_mark_of_document {r : Registry} {src : Bytes} {content : List Node}
    (h : Parse.document r src = .ok (.branch ⟨0, src.length⟩ {} .document [] content)) :
    All (Node.Marked src 0 (marksAll content)) content := by
  obtain ⟨body, hbody, htree⟩ := Parse.derives_of_document h
  cases htree
  obtain ⟨htiles, hsolid⟩ := hbody.tiled
  refine Node.exists_mark_all body.nodes (fun n hn => ⟨hbody.sound n hn, (hsolid n hn).tiled, ?_⟩) htiles
  exact hbody.faithful (Cursor.at_start src) n hn

/-- The layout of a document guards its comments; behind the last one the document may end. -/
theorem guards_document {r : Registry} {src : Bytes} {content : List Node} (measure : Bytes → Nat)
    (h : Parse.document r src = .ok (.branch ⟨0, src.length⟩ {} .document [] content))
    (hlinked : Linked false content) (hfenced : All Fenced content) :
    Guards true (marksAll content) (Print.doc measure
      ((Node.branch ⟨0, src.length⟩ {} .document [] content).annotate r)).atoms := by
  have hsound := (Node.each_branch_iff.1 (Parse.sound_of_document h)).2.2
  rw [Print.doc, Node.annotate, Print.nodeDoc, ← Node.marksAll_annotateAll r content]
  exact (Print.guards_paragraph (Print.fences_flow measure .text _ true false none _
    (Node.all_annotateAll (P := Sound) r (fun _ => Node.sound_annotate) content hsound)
    (Node.all_annotateAll (P := Fenced) r (fun _ => Node.fenced_annotate) content hfenced)
    (Node.linked_annotateAll hlinked))).weaken fun _ => rfl

/-- Every comment of a document is one line and is shown by the layout of the document. -/
theorem shown_of_document {r : Registry} {src : Bytes} {tree : Node} (measure : Bytes → Nat)
    (h : Parse.document r src = .ok tree) {n : Node} (hn : n ∈ tree.preorder) {c : Comment}
    (hc : n.comment? = some c) :
    Byte.newline ∉ c.content ∧ (Mark.mk (ink (src.take (n.span.start + c.leading.length))) c).Shown
      (Print.doc measure (tree.annotate r)).atoms := by
  obtain ⟨content, rfl, hlinked, hfenced⟩ := Parse.fenced_of_document h
  have hmem : n ∈ Node.preorderAll content := by
    rcases List.mem_cons.1 hn with rfl | hn
    · cases hc
    · exact hn
  obtain ⟨m, hm, rfl, hink⟩ := exists_mark_of_document h n hmem c hc
  have hshown := guards_document measure h hlinked hfenced [] (fun _ => rfl) m hm
  rw [List.append_nil] at hshown
  refine ⟨?_, by rw [hink]; exact hshown⟩
  have hn := hfenced n hmem
  unfold Node.comment? at hc
  split at hc
  · exact (Option.some.inj hc) ▸ hn
  · cases hc

/-- **A comment never swallows code.** Take any comment of a document and the ink of the source before its
    percent sign, which tells this comment from all others. In the layout of the document the text of the
    comment stands behind just that ink, and a line break, a newline or the end of the document follows it.
    Hence formatting succeeds, and for every width, indentation and measure the percent sign stands behind
    the same ink in the output, with the content of the comment behind it and nothing else on that line. -/
theorem comment_ends_line {r : Registry} {src : Bytes} {tree : Node}
    (h : Parse.document r src = .ok tree) {n : Node} (hn : n ∈ tree.preorder) {c : Comment}
    (hc : n.comment? = some c) :
    (∀ measure, (Mark.mk (ink (src.take (n.span.start + c.leading.length))) c).Shown
      (Print.doc measure (tree.annotate r)).atoms) ∧
    ∀ width indent measure, ∃ front rest,
      format ⟨width, indent, r, measure⟩ src = .ok (front ++ Byte.percent :: rest) ∧
        ink front = ink (src.take (n.span.start + c.leading.length)) ∧
        lineText rest = c.content.trimEnd isLineBlank := by
  refine ⟨fun measure => (shown_of_document measure h hn hc).2, fun width indent measure => ?_⟩
  obtain ⟨hline, hshown⟩ := shown_of_document measure h hn hc
  obtain ⟨t, hwrites, hrender⟩ :=
    (pageOf measure width indent).writes_render (Print.doc measure (tree.annotate r))
  obtain ⟨front, rest, hout, hink, hrest⟩ := (hshown.written hline hwrites).stripEnd.endLine
  refine ⟨front, rest, ?_, hink, hrest⟩
  rw [format, run, h, ← hout, ← hrender]
  rfl

/-- A comment that hides a closing bracket, in the optional argument of a row separator, and one that hides
    a command behind a row. The first one stands inside the text of the row separator. -/
theorem comment_ends_line_rowSeparator :
    ∃ tree n, Parse.document .builtin (bytes
        "\\begin\x7btabular\x7d\x7bl\x7db\\\\[%]\n2pt]c %\\end\n\\end\x7btabular\x7d") = .ok tree ∧
      n ∈ tree.preorder ∧ n.comment? = some ⟨[], bytes "]", bytes "\n", true⟩ ∧
      ∃ front rest, format {} (bytes
          "\\begin\x7btabular\x7d\x7bl\x7db\\\\[%]\n2pt]c %\\end\n\\end\x7btabular\x7d") =
          .ok (front ++ Byte.percent :: rest) ∧
        ink front = bytes "\\begin\x7btabular\x7d\x7bl\x7db\\\\[" ∧ lineText rest = bytes "]" := by
  obtain ⟨tree, htree⟩ := Parse.exists_ok_of_isOk (x := Parse.document .builtin (bytes
    "\\begin\x7btabular\x7d\x7bl\x7db\\\\[%]\n2pt]c %\\end\n\\end\x7btabular\x7d")) (by decide +kernel)
  have hfirst : (tree.preorder.filterMap fun n => n.comment?.map fun c => (n.span.start, c)).head? =
      some (22, ⟨[], bytes "]", bytes "\n", true⟩) := by
    have hall : ((Parse.document .builtin (bytes
        "\\begin\x7btabular\x7d\x7bl\x7db\\\\[%]\n2pt]c %\\end\n\\end\x7btabular\x7d")).toOption.bind fun tree =>
          (tree.preorder.filterMap fun n => n.comment?.map fun c => (n.span.start, c)).head?) =
        some (22, ⟨[], bytes "]", bytes "\n", true⟩) := by decide +kernel
    rwa [htree] at hall
  obtain ⟨n, hn, hcomment⟩ := List.mem_filterMap.1 (List.mem_of_mem_head? hfirst)
  obtain ⟨c, hc, heq⟩ := Option.map_eq_some_iff.1 hcomment
  obtain ⟨hstart, rfl⟩ := Prod.mk.inj heq
  obtain ⟨front, rest, hout, hink, hline⟩ := (comment_ends_line htree hn hc).2 0 0 Text.displayWidth
  refine ⟨tree, n, htree, hn, hc, front, rest, hout, ?_, hline⟩
  rw [hink, hstart]
  decide +kernel

end Format

end TexTidy
