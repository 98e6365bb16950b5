import Mathlib.Data.List.Induction
import TexTidy.Proofs.DisplayWidth
import TexTidy.Proofs.Nested
import TexTidy.Format

/-!
# TexTidy.Proofs.Width

Which documents respect the width. In a document that *wraps* (`Node.isWrapped`) every line that is too long is
an indentation and one run without a space: no line overflows that could have been broken at a space. If
nested sequences hold spaces, which the renderer breaks without a look at what comes after them, the same
holds of all of a line but its last run.

What a document must not hold for that: text with unbreakable blanks, line breaks in nested sequences, and
something glued to the end of a block. The renderer asks whether the next content of a fill fits up to the
first line break in it, so it does not see what stands behind such a break. No text may begin inside a character
either, since then its columns depend on the text before it.
-/

namespace TexTidy

/-! ## documents that wrap -/

namespace Node

/-- What may come right after a block: white space, another block, or a command that starts a line. At the
    end of a sequence, `closed` says whether the paragraph ends there too. -/
def leavesBlock (closed : Bool) : Option Node → Bool
  | none => closed
  | some n => n.isSpace || n.standsAlone || (n.command?.isSome && n.hints.breakBefore)

mutual

/-- Whether lines can be broken at all spaces of a node, where nested sequences hold spaces only with
    `spaced`. -/
def wraps (spaced : Bool) (mode : Mode) : Node → Bool
  | .leaf _ _ (.text content) => content.isSolid
  | .leaf _ _ (.space _) => true
  | .leaf _ _ (.parbreak _) => true
  | .branch _ hints (.command escape name) args _ =>
    (escape ++ name).isSolid &&
      if hints.inParagraph && mode = .text then argumentsWrap spaced (Print.argumentMode hints mode) args
      else args.all isArgument && areNeat spaced args
  | .branch _ _ (.inlineMath opening closing) _ content =>
    opening.isSolid && closing.isSolid && !content.all isPlainSpace && areNeat spaced content
  | .branch _ hints (.environment name) args content =>
    name.isSolid && !Print.isTable hints content && args.all isArgument && areNeat spaced args &&
      contentWraps spaced true mode content
  | .branch _ hints (.mathEnvironment name) args content =>
    name.isSolid && !Print.isTable hints content && args.all isArgument && areNeat spaced args &&
      contentWraps spaced true .math content
  | .branch _ _ (.displayMath opening closing) _ content =>
    opening.isSolid && closing.isSolid && contentWraps spaced true .math content
  | _ => false

/-- Whether the nodes of a sequence wrap and nothing is glued to the end of a block. -/
def contentWraps (spaced closed : Bool) (mode : Mode) : List Node → Bool
  | [] => true
  | n :: ns =>
    wraps spaced mode n && (!n.standsAlone || leavesBlock closed ns.head?) &&
      contentWraps spaced closed mode ns

/-- Whether an argument that flows with the paragraph around its command wraps. -/
def argumentWraps (spaced : Bool) (mode : Mode) : Node → Bool
  | .branch _ _ (.argument space opening closing) _ content =>
    if opening.isEmpty then space.isEmpty && areNeat spaced content
    else opening.isSolid && closing.isSolid && contentWraps spaced false mode content
  | _ => false

/-- Whether arguments that flow with the paragraph around their command wrap. -/
def argumentsWrap (spaced : Bool) (mode : Mode) : List Node → Bool
  | [] => true
  | n :: ns => argumentWraps spaced mode n && argumentsWrap spaced mode ns

end

/-- Whether a document wraps. -/
def isWrapped (spaced : Bool) : Node → Bool
  | .branch _ _ .document _ content => contentWraps spaced true .text content
  | _ => false

end Node

namespace Print

open Node (areNeat leavesBlock wraps contentWraps argumentWraps argumentsWrap)
open Layout (Doc Neat Joint Body Break)

variable {spaced closed : Bool} {mode : Mode} {p : Paragraph}

/-! ### steps that end in content -/

/-- The last step is content. -/
def EndsOpen (ss : List Step) : Prop :=
  ∃ front d, ss = front ++ [.content d]

theorem EndsOpen.append {ss : List Step} (h : EndsOpen ss) (front : List Step) : EndsOpen (front ++ ss) := by
  obtain ⟨before, d, rfl⟩ := h
  exact ⟨front ++ before, d, (List.append_assoc ..).symm⟩

theorem steps_append (p : Paragraph) (ss ts : List Step) : p.steps (ss ++ ts) = (p.steps ss).steps ts :=
  List.foldl_append

theorem EndsOpen.gap_steps {ss : List Step} (h : EndsOpen ss) (p : Paragraph) : (p.steps ss).gap = none := by
  obtain ⟨front, d, rfl⟩ := h
  rw [steps_append]
  exact Paragraph.gap_addContent _ d

theorem EndsOpen.isEmpty_steps {ss : List Step} (h : EndsOpen ss) (p : Paragraph) :
    (p.steps ss).isEmpty = false := by
  obtain ⟨front, d, rfl⟩ := h
  rw [steps_append]
  exact Bool.and_false _

theorem endsOpen_delimitedSteps (measure : Bytes → Nat) {n : Node} (h : isDelimitedArgument n = true) :
    EndsOpen (delimitedSteps measure mode n) := by
  unfold isDelimitedArgument at h
  split at h
  · rw [delimitedSteps]
    exact .append ⟨[], _, rfl⟩ _
  · cases h

theorem endsOpen_argumentSteps (measure : Bytes → Nat) (mode : Mode) (ns : List Node) :
    argumentSteps measure mode ns = [] ∨ EndsOpen (argumentSteps measure mode ns) := by
  induction ns with
  | nil => exact .inl rfl
  | cons n ns ih =>
    rw [argumentSteps]
    rcases ih with hnil | hends
    · rw [hnil, List.append_nil]
      split
      · next h => exact .inr (endsOpen_delimitedSteps measure h)
      · exact .inr ⟨[], _, rfl⟩
    · exact .inr (hends.append _)

theorem endsOpen_inlineSteps (measure : Bytes → Nat) {n : Node} (h : n.command?.isSome = true) :
    EndsOpen (inlineSteps measure mode n) := by
  unfold Node.command? at h
  split at h
  · next hints escape name args content =>
    rw [inlineSteps]
    rcases endsOpen_argumentSteps measure (argumentMode hints mode) args with hnil | hends
    · exact ⟨[], _, by rw [hnil]; rfl⟩
    · exact hends.append [_]
  · cases h

theorem endsOpen_nodeSteps (measure : Bytes → Nat) (mode : Mode) (preamble : Bool)
    (previous next : Option Node) {n : Node} (hspace : n.isSpace = false) (hcomment : n.comment? = none) :
    EndsOpen (nodeSteps mode preamble previous next n
      (if isInline mode n then inlineSteps measure mode n else [.content (nodeDoc measure mode n)])) := by
  rw [nodeSteps_eq hspace hcomment]
  refine .append ?_ _
  split
  · next h => exact endsOpen_inlineSteps measure (isSome_command?_of_isInline h)
  · exact ⟨[], _, rfl⟩

/-- A trimmed sequence ends in content, unless it is all white space. -/
theorem endsOpen_flow (measure : Bytes → Nat) (preamble inked : Bool) (previous : Option Node)
    {ns : List Node} (h : ∀ n ∈ ns, n.comment? = none) :
    ns.all Node.isSpace = true ∨ EndsOpen (flow measure mode preamble true inked previous ns) := by
  induction ns generalizing inked previous with
  | nil => exact .inl rfl
  | cons n ns ih =>
    obtain ⟨hn, hns⟩ := List.forall_mem_cons.1 h
    rcases ih (inked || !n.isSpace) (some n) hns with hspaces | hends
    · cases hspace : n.isSpace with
      | true => exact .inl (by rw [List.all_cons, hspace, hspaces]; rfl)
      | false =>
        rw [flow, flow_of_isSpace _ _ _ _ _ (List.all_eq_true.1 hspaces), List.append_nil,
          if_neg (by simp [hspace])]
        exact .inr (endsOpen_nodeSteps measure mode preamble _ _ hspace hn)
    · rw [flow]
      exact .inr (hends.append _)

/-! ### what can come next -/

/-- A paragraph between two nodes of a body. -/
inductive Ready (spaced closed : Bool) (previous next : Option Node) (p : Paragraph) : Prop
  /-- Anything can come. -/
  | takes (takes : p.Takes spaced)
  /-- A space in front of a block has vanished. -/
  | waits (laid : p.Flows spaced ∨ p.Stands spaced) (gap : p.gap = some .none)
      (next : next.any Node.standsAlone = true)
  /-- A block was the last to arrive. -/
  | stands (stands : p.Stands spaced) (gap : p.gap = none) (previous : previous.any Node.standsAlone = true)
      (next : leavesBlock closed next = true)

namespace Ready

variable {previous next : Option Node}

theorem laid (h : Ready spaced closed previous next p) : p.Flows spaced ∨ p.Stands spaced := by
  cases h with
  | takes takes =>
    cases takes with
    | flows flows _ => exact .inl flows
    | stands stands _ => exact .inr stands
  | waits laid _ _ => exact laid
  | stands stands _ _ _ => exact .inr stands

/-- At the end of a sequence either anything can come or the paragraph ends with a block. -/
theorem takes_or (h : Ready spaced closed previous none p) :
    p.Takes spaced ∨ closed = true ∧ p.Stands spaced ∧ p.gap = none := by
  cases h with
  | takes takes => exact .inl takes
  | waits _ _ next => cases next
  | stands stands gap _ next => exact .inr ⟨next, stands, gap⟩

end Ready

theorem takes_of_breaks (h : p.Flows spaced ∨ p.Stands spaced) (hbreaks : p.Breaks) : p.Takes spaced := by
  rcases h with h | h
  · exact .flows h hbreaks.gap_ne
  · exact .stands h hbreaks

theorem laid_addSeparator (h : p.Flows spaced ∨ p.Stands spaced) (s : Separator) :
    (p.addSeparator s).Flows spaced ∨ (p.addSeparator s).Stands spaced :=
  h.imp (fun h => ⟨h.done, h.item, h.fresh⟩) fun h => ⟨h.done, h.item⟩

/-- After a line break anything can come. -/
theorem takes_addBreak (h : p.Flows spaced ∨ p.Stands spaced) {s : Separator} (hs : Break s.doc) :
    (p.addSeparator s).Takes spaced :=
  takes_of_breaks (laid_addSeparator h s) (p.breaks_addSeparator hs)

theorem any_present_standsAlone (o : Option Node) :
    (present o).any Node.standsAlone = o.any Node.standsAlone := by
  cases o with
  | none => rfl
  | some m =>
    cases hm : m.isMissing with
    | false => simp [present, hm]
    | true =>
      unfold Node.isMissing at hm
      split at hm
      · rfl
      · cases hm

/-- A space vanishes only in front of a block. -/
theorem spaceBetween_cases (preamble : Bool) (previous next : Option Node) :
    next.any Node.standsAlone = true ∧ spaceBetween preamble previous next = .none ∨
      spaceBetween preamble previous next = .forced ∨
      previous.any Node.standsAlone = false ∧ spaceBetween preamble previous next = .line := by
  unfold spaceBetween
  split
  · next h => exact .inl ⟨h, rfl⟩
  · split
    · exact .inr (.inl rfl)
    · split
      · exact .inr (.inl rfl)
      · next h _ => exact .inr (.inr ⟨Bool.eq_false_iff.2 h, rfl⟩)

theorem standsAlone_of_isSpace {n : Node} (h : n.isSpace = true) : n.standsAlone = false := by
  cases n with
  | leaf => rfl
  | branch => cases h

/-- **White space** between two nodes. -/
theorem ready_space {previous next : Option Node} {n : Node} (hn : n.isSpace = true) (preamble : Bool)
    (h : Ready spaced closed previous (some n) p) :
    Ready spaced closed (some n) next
      (p.addSeparator (spaceBetween preamble (present previous) (present next))) := by
  have hnext : ¬ (some n).any Node.standsAlone = true := by simp [standsAlone_of_isSpace hn]
  rcases spaceBetween_cases preamble (present previous) (present next) with
    ⟨hblock, heq⟩ | heq | ⟨hflows, heq⟩
  · rw [any_present_standsAlone] at hblock
    rw [heq]
    by_cases hgap : (p.addSeparator .none).gap = some .none
    · exact .waits (laid_addSeparator h.laid _) hgap hblock
    · cases h with
      | takes takes =>
        cases takes with
        | flows flows _ => exact .takes (.flows ⟨flows.done, flows.item, flows.fresh⟩ hgap)
        | stands stands breaks =>
          exact .takes (.stands ⟨stands.done, stands.item⟩ (breaks.addSeparator _))
      | waits _ _ next => exact absurd next hnext
      | stands _ gap _ _ => exact absurd (by rw [Paragraph.addSeparator, gap]; rfl) hgap
  · rw [heq]
    exact .takes (takes_addBreak h.laid .line)
  · rw [any_present_standsAlone] at hflows
    rw [heq]
    cases h with
    | takes takes => exact .takes (takes.addSeparator (by decide))
    | waits _ _ next => exact absurd next hnext
    | stands _ _ previous _ => simp [hflows] at previous

theorem isEmpty_of_stands (h : p.Stands spaced) : p.isEmpty = false := by
  obtain ⟨d, hd, _⟩ := h.item
  rw [Paragraph.isEmpty, hd]
  exact Bool.and_false _

/-- The line break in front of a node that starts a line. -/
theorem takes_before {previous : Option Node} {n : Node} (hspace : n.isSpace = false)
    (hstands : n.standsAlone = false) (h : Ready spaced closed previous (some n) p) :
    (p.steps (if n.standsAlone || (n.command?.isSome && n.hints.breakBefore) then
      [.unlessEmpty .forced] else [])).Takes spaced := by
  rw [hstands, Bool.false_or]
  split
  · cases hempty : p.isEmpty with
    | false =>
      simp only [Paragraph.steps, List.foldl_cons, List.foldl_nil, Paragraph.step, hempty]
      exact takes_addBreak h.laid .line
    | true =>
      simp only [Paragraph.steps, List.foldl_cons, List.foldl_nil, Paragraph.step, hempty]
      cases h with
      | takes takes => exact takes
      | waits _ _ next => simp [hstands] at next
      | stands stands _ _ _ => simp [isEmpty_of_stands stands] at hempty
  · next hbefore =>
    cases h with
    | takes takes => exact takes
    | waits _ _ next => simp [hstands] at next
    | stands _ _ _ next => exact absurd (by simpa [leavesBlock, hspace, hstands] using next) hbefore

/-- A place where a formula may break is as good as a space. -/
theorem takes_formulaBreak (h : p.Takes spaced) (mode : Mode) (previous : Option Node) (n : Node) :
    (p.steps (formulaBreak mode previous n)).Takes spaced := by
  unfold formulaBreak
  split
  · split
    · exact h
    · simp only [Paragraph.steps, List.foldl_cons, List.foldl_nil, Paragraph.step]
      split
      · exact h.addSeparator (by split <;> decide)
      · exact h
  · exact h

/-- Behind a separator a formula adds none. -/
theorem steps_formulaBreak (h : p.isOpen = false) (mode : Mode) (previous : Option Node) (n : Node) :
    p.steps (formulaBreak mode previous n) = p := by
  unfold formulaBreak
  split
  · split
    · rfl
    · simp [Paragraph.steps, Paragraph.step, h]
  · rfl

theorem isInline_of_standsAlone {n : Node} (h : n.standsAlone = true) : isInline mode n = false := by
  unfold Node.standsAlone at h
  split at h
  · rfl
  · rfl
  · rfl
  · rfl
  · cases h

/-- **A block** between two nodes. -/
theorem stands_block {previous next : Option Node} {n : Node} {d : Doc} (hn : n.standsAlone = true)
    (h : Ready spaced closed previous (some n) p) (hempty : p.isEmpty = true → p = {})
    (hd : Body spaced .piece [.concat [d]]) (preamble : Bool) :
    (p.steps (nodeSteps mode preamble (present previous) next n [.content d])).Stands spaced := by
  have hspace : n.isSpace = false := by
    cases hspace : n.isSpace with
    | false => rfl
    | true => simp [standsAlone_of_isSpace hspace] at hn
  have hcomment : n.comment? = none := by
    cases n with
    | leaf => cases hn
    | branch => rfl
  rw [nodeSteps_eq hspace hcomment, hn, Bool.true_or, if_pos rfl, isInline_of_standsAlone hn,
    if_neg Bool.false_ne_true, steps_append, steps_append]
  cases hp : p.isEmpty with
  | true =>
    cases hempty hp
    have hbefore : ({} : Paragraph).steps [.unlessEmpty .forced] = {} := rfl
    rw [hbefore, steps_formulaBreak rfl]
    exact Paragraph.stands_addContent_empty hd
  | false =>
    have hbefore : p.steps [.unlessEmpty .forced] = p.addSeparator .forced := by
      simp [Paragraph.steps, Paragraph.step, hp]
    have hopen : (p.addSeparator .forced).isOpen = false := Bool.and_false _
    rw [hbefore, steps_formulaBreak hopen]
    exact Paragraph.stands_addContent (laid_addSeparator h.laid _) (p.breaks_addSeparator .line) hd

/-- **Neat content** between two nodes. -/
theorem takes_neat {previous next : Option Node} {n : Node} {d : Doc} (hspace : n.isSpace = false)
    (hcomment : n.comment? = none) (hstands : n.standsAlone = false) (hinline : isInline mode n = false)
    (h : Ready spaced closed previous (some n) p) (hd : Neat spaced .item [d]) (preamble : Bool) :
    (p.steps (nodeSteps mode preamble (present previous) next n [.content d])).Flows spaced := by
  rw [nodeSteps_eq hspace hcomment, hinline, if_neg Bool.false_ne_true, steps_append, steps_append]
  exact (takes_formulaBreak (takes_before hspace hstands h) mode _ n).addContent hd

/-! ### the layout of a body -/

theorem comment?_of_wraps {n : Node} (h : n.wraps spaced mode = true) : n.comment? = none := by
  unfold Node.comment?
  split
  · simp [wraps] at h
  · rfl

theorem comment?_of_contentWraps {ns : List Node} (h : contentWraps spaced closed mode ns = true) :
    ∀ n ∈ ns, n.comment? = none := by
  induction ns with
  | nil => exact List.forall_mem_nil _
  | cons n ns ih =>
    simp only [contentWraps, Bool.and_eq_true] at h
    exact List.forall_mem_cons.2 ⟨comment?_of_wraps h.1.1, ih h.2⟩

/-- A block around a body. -/
theorem body_block {opening : Doc} {closing : Bytes} {content : List Node} {ps : List Doc}
    (hopening : Neat spaced .item [opening]) (hclosing : closing.isSolid = true)
    (hcontent : ∀ n ∈ content, n.comment? = none) (hbody : Body spaced .parts ps) :
    Body spaced .piece [.concat [block opening (.text closing) content (.fill ps)]] := by
  unfold block
  split
  · exact .hollow hopening hclosing
  · next first rest htrim =>
    have hmem : first ∈ content := by
      have htrimmed : first ∈ Node.trim content := htrim ▸ List.mem_cons_self
      rw [Node.trim, List.mem_reverse] at htrimmed
      have hdropped := List.mem_reverse.1 ((List.dropWhile_sublist _).subset htrimmed)
      exact (List.dropWhile_sublist _).subset hdropped
    rw [hcontent first hmem]
    exact .block hopening hbody hclosing

/-- What opens an environment. -/
theorem neat_opening (measure : Bytes → Nat) (mode : Mode) {name : Bytes} {args : List Node}
    (hname : name.isSolid = true) (harguments : args.all Node.isArgument = true)
    (hargs : areNeat spaced args = true) :
    Neat spaced .item [.concat [.text (Cursor.beginMarker name), .concat (nodeDocs measure mode args)]] := by
  have hmarker : (Cursor.beginMarker name).isSolid = true :=
    Bytes.isSolid_append (Bytes.isSolid_append (by decide) hname) (by decide)
  exact .concat (.cons (.text hmarker) (.cons (.concat (neat_nodeDocs measure mode args harguments hargs)) .nil))

theorem isSolid_endMarker {name : Bytes} (h : name.isSolid = true) :
    (Cursor.endMarker name).isSolid = true :=
  Bytes.isSolid_append (Bytes.isSolid_append (by decide) h) (by decide)

/-- What a body holds between blocks and white space is neat, except for commands that flow. -/
theorem isNeat_of_wraps {n : Node} (h : n.wraps spaced mode = true) (hspace : n.isSpace = false)
    (hstands : n.standsAlone = false) (hinline : isInline mode n = false) : n.isNeat spaced = true := by
  cases n with
  | leaf s hints l =>
    cases l with
    | text => exact h
    | space => cases hspace
    | parbreak => cases hspace
    | _ => cases h
  | branch s hints shape args content =>
    cases shape with
    | inlineMath => exact h
    | command escape name =>
      have hflows : (hints.inParagraph && decide (mode = .text)) = false := by
        simpa [isInline, Node.command?, Node.hints] using hinline
      rw [wraps, hflows] at h
      simpa [Node.isNeat, and_assoc] using h
    | environment | mathEnvironment | displayMath => cases hstands
    | _ => cases h

/-- The place of a paragraph in its sequence: before a trimmed sequence has begun the paragraph is empty,
    and it is not empty afterwards. -/
def Begun (closed inked : Bool) (p : Paragraph) : Prop :=
  if closed && !inked then p = {} else p.isEmpty = false

theorem Begun.eq_empty {inked : Bool} (h : Begun closed inked p) (hp : p.isEmpty = true) : p = {} := by
  unfold Begun at h
  split at h
  · exact h
  · simp [hp] at h

/-- Nothing is missing when the white space at the end of a sequence is left out. -/
theorem ready_end {previous : Option Node} {n : Node} (hn : n.isSpace = true)
    (h : Ready spaced true previous (some n) p) : Ready spaced true previous none p := by
  cases h with
  | takes takes => exact .takes takes
  | waits _ _ next => simp [standsAlone_of_isSpace hn] at next
  | stands stands gap previous _ => exact .stands stands gap previous rfl

theorem begun_node (measure : Bytes → Nat) (preamble : Bool) {inked : Bool} {previous next : Option Node}
    {n : Node} {ns : List Node} (hcomment : n.comment? = none)
    (hkept : ¬ (closed && n.isSpace && (!inked || ns.all Node.isSpace)) = true) (h : Begun closed inked p) :
    Begun closed (inked || !n.isSpace) (p.steps (nodeSteps mode preamble previous next n
      (if isInline mode n then inlineSteps measure mode n else [.content (nodeDoc measure mode n)]))) := by
  cases hspace : n.isSpace with
  | false =>
    rw [Begun, Bool.not_false, Bool.or_true, Bool.not_true, Bool.and_false, if_neg Bool.false_ne_true]
    exact (endsOpen_nodeSteps measure mode preamble previous next hspace hcomment).isEmpty_steps p
  | true =>
    -- white space is kept only in a sequence that has begun
    have hbegun : (closed && !inked) = false := by
      cases closed <;> cases inked <;> simp_all
    rw [Begun, hbegun, if_neg Bool.false_ne_true] at h
    rw [Begun, Bool.not_true, Bool.or_false, hbegun, if_neg Bool.false_ne_true]
    unfold Node.isSpace at hspace
    split at hspace
    · exact h
    · exact h
    · cases hspace

theorem isSpace_of_argumentWraps {n : Node} (h : argumentWraps spaced mode n = true) :
    n.isSpace = false := by
  cases n with
  | leaf => cases h
  | branch => rfl

theorem isNeat_of_argumentWraps {n : Node} (h : argumentWraps spaced mode n = true)
    (hbare : ¬ isDelimitedArgument n = true) : n.isNeat spaced = true := by
  unfold argumentWraps at h
  split at h
  · next space opening closing _ content =>
    have hempty : opening.isEmpty = true := by simpa [isDelimitedArgument] using hbare
    rw [if_pos hempty] at h
    rwa [Node.isNeat, if_pos hempty]
  · cases h

/-- **One node of a body** keeps the paragraph ready for the next. -/
theorem ready_node (measure : Bytes → Nat) (preamble : Bool) {previous next : Option Node} {n : Node}
    (hn : n.wraps spaced mode = true) (hnext : (!n.standsAlone || leavesBlock closed next) = true)
    (h : Ready spaced closed previous (some n) p) (hp : p.isEmpty = true → p = {})
    (hblock : n.standsAlone = true → Body spaced .piece [.concat [nodeDoc measure mode n]])
    (hinline : isInline mode n = true → ∀ q : Paragraph, q.Takes spaced →
      (q.steps (inlineSteps measure mode n)).Takes spaced) :
    Ready spaced closed (some n) next (p.steps (nodeSteps mode preamble (present previous) (present next) n
      (if isInline mode n then inlineSteps measure mode n else [.content (nodeDoc measure mode n)]))) := by
  have hcomment := comment?_of_wraps hn
  cases hspace : n.isSpace with
  | true =>
    unfold Node.isSpace at hspace
    split at hspace
    · exact ready_space rfl preamble h
    · exact .takes (takes_addBreak h.laid .paragraph)
    · cases hspace
  | false =>
    have hgap := (endsOpen_nodeSteps measure mode preamble (present previous) (present next) hspace
      hcomment).gap_steps p
    cases hstands : n.standsAlone with
    | true =>
      rw [isInline_of_standsAlone hstands, if_neg Bool.false_ne_true] at hgap ⊢
      refine .stands (stands_block hstands h hp (hblock hstands) preamble) hgap hstands ?_
      simpa [hstands] using hnext
    | false =>
      cases hflows : isInline mode n with
      | false =>
        rw [hflows, if_neg Bool.false_ne_true] at hgap
        have hneat := neat_nodeDoc measure mode n (isNeat_of_wraps hn hspace hstands hflows) hspace
        refine .takes (.flows (takes_neat hspace hcomment hstands hflows h hneat preamble) ?_)
        simp [hgap]
      | true =>
        rw [nodeSteps_eq hspace hcomment, steps_append, steps_append, hflows]
        exact .takes (hinline hflows _ (takes_before hspace hstands h))

theorem takes_content {d : Doc} (h : p.Takes spaced) (hd : Neat spaced .item [d]) :
    (p.addContent d).Takes spaced :=
  .flows (h.addContent hd) (by simp [Paragraph.gap_addContent])

/-- The fill of a trimmed sequence. -/
theorem body_flow (measure : Bytes → Nat) (mode : Mode) (preamble : Bool) {ns : List Node}
    (hcomment : ∀ n ∈ ns, n.comment? = none) {last : Option Node}
    (h : Ready spaced true last none
      (({} : Paragraph).steps (flow measure mode preamble true false none ns))) :
    Body spaced .parts (({} : Paragraph).steps (flow measure mode preamble true false none ns)).fillParts := by
  refine Paragraph.body_fillParts h.laid ?_
  rcases endsOpen_flow measure preamble false none hcomment with hspaces | hends
  · rw [flow_of_isSpace _ _ _ _ _ (List.all_eq_true.1 hspaces)]
    rfl
  · exact hends.gap_steps _

mutual

/-- **The layout of a block is a block around a body.** -/
theorem body_nodeDoc (measure : Bytes → Nat) (mode : Mode) : ∀ n : Node, n.wraps spaced mode = true →
    n.standsAlone = true → Body spaced .piece [.concat [nodeDoc measure mode n]]
  | .leaf _ _ _, _, hstands => by cases hstands
  | .branch _ hints shape args content, h, hstands => by
    have hbody (mode : Mode) (hcontent : contentWraps spaced true mode content = true) :
        Body spaced .parts
          (({} : Paragraph).steps (flow measure mode false true false none content)).fillParts := by
      obtain ⟨last, hready⟩ := ready_flow measure mode false content false none {} hcontent
        (.takes Paragraph.takes_empty) rfl
      exact body_flow measure mode false (comment?_of_contentWraps hcontent) hready
    cases shape with
    | environment name =>
      simp only [wraps, Bool.and_eq_true, Bool.not_eq_true'] at h
      obtain ⟨⟨⟨⟨hname, htable⟩, harguments⟩, hargs⟩, hcontent⟩ := h
      rw [nodeDoc, htable, if_neg Bool.false_ne_true]
      exact body_block (neat_opening measure mode hname harguments hargs) (isSolid_endMarker hname)
        (comment?_of_contentWraps hcontent) (hbody mode hcontent)
    | mathEnvironment name =>
      simp only [wraps, Bool.and_eq_true, Bool.not_eq_true'] at h
      obtain ⟨⟨⟨⟨hname, htable⟩, harguments⟩, hargs⟩, hcontent⟩ := h
      rw [nodeDoc, htable, if_neg Bool.false_ne_true]
      exact body_block (neat_opening measure .math hname harguments hargs) (isSolid_endMarker hname)
        (comment?_of_contentWraps hcontent) (hbody .math hcontent)
    | displayMath opening closing =>
      simp only [wraps, Bool.and_eq_true] at h
      obtain ⟨⟨hopening, hclosing⟩, hcontent⟩ := h
      exact body_block (.text hopening) hclosing (comment?_of_contentWraps hcontent)
        (hbody .math hcontent)
    | verbatim => cases h
    | _ => cases hstands

/-- **A sequence keeps its paragraph ready.** -/
theorem ready_flow (measure : Bytes → Nat) (mode : Mode) (preamble : Bool) {closed : Bool} :
    ∀ (ns : List Node) (inked : Bool) (previous : Option Node) (p : Paragraph),
      contentWraps spaced closed mode ns = true → Ready spaced closed previous ns.head? p →
      Begun closed inked p → ∃ last, Ready spaced closed last none
        (p.steps (flow measure mode preamble closed inked previous ns))
  | [], _, previous, _, _, hready, _ => ⟨previous, hready⟩
  | n :: ns, inked, previous, p, h, hready, hbegun => by
    simp only [contentWraps, Bool.and_eq_true] at h
    obtain ⟨⟨hn, hnext⟩, hns⟩ := h
    rw [flow, steps_append]
    split
    · next hskip =>
      simp only [Bool.and_eq_true] at hskip
      obtain ⟨⟨rfl, hspace⟩, htrim⟩ := hskip
      cases inked with
      | false =>
        have hempty : p = {} := hbegun
        refine ready_flow measure mode preamble ns _ (some n) p hns ?_ (by rw [hspace]; exact hbegun)
        rw [hempty]
        exact .takes Paragraph.takes_empty
      | true =>
        rw [flow_of_isSpace _ _ _ _ _ (List.all_eq_true.1 htrim)]
        exact ⟨previous, ready_end hspace hready⟩
    · next hkept =>
      have hnode := ready_node measure preamble hn hnext hready hbegun.eq_empty
        (body_nodeDoc measure mode n hn) (takes_inlineSteps measure mode n hn)
      exact ready_flow measure mode preamble ns _ (some n) _ hns hnode
        (begun_node measure preamble (comment?_of_wraps hn) hkept hbegun)

theorem takes_inlineSteps (measure : Bytes → Nat) (mode : Mode) : ∀ n : Node, n.wraps spaced mode = true →
    isInline mode n = true → ∀ p : Paragraph, p.Takes spaced →
    (p.steps (inlineSteps measure mode n)).Takes spaced
  | .leaf _ _ _, _, _, _, hp => hp
  | .branch _ hints shape args _, h, hinline, p, hp => by
    cases shape with
    | command escape name =>
      have hflows : (hints.inParagraph && decide (mode = .text)) = true := by
        simpa [isInline, Node.command?, Node.hints] using hinline
      rw [wraps, hflows, if_pos rfl, Bool.and_eq_true] at h
      exact takes_argumentSteps measure _ args h.2 _ (takes_content hp (.text h.1))
    | _ => exact hp

theorem takes_argumentSteps (measure : Bytes → Nat) (mode : Mode) : ∀ ns : List Node,
    argumentsWrap spaced mode ns = true → ∀ p : Paragraph, p.Takes spaced →
    (p.steps (argumentSteps measure mode ns)).Takes spaced
  | [], _, _, hp => hp
  | n :: ns, h, p, hp => by
    simp only [argumentsWrap, Bool.and_eq_true] at h
    rw [argumentSteps, steps_append]
    refine takes_argumentSteps measure mode ns h.2 _ ?_
    split
    · next hdelimited => exact takes_delimitedSteps measure mode n h.1 hdelimited p hp
    · next hbare =>
      exact takes_content hp (neat_nodeDoc measure mode n (isNeat_of_argumentWraps h.1 hbare)
        (isSpace_of_argumentWraps h.1))

theorem takes_delimitedSteps (measure : Bytes → Nat) (mode : Mode) : ∀ n : Node,
    argumentWraps spaced mode n = true → isDelimitedArgument n = true → ∀ p : Paragraph,
    p.Takes spaced → (p.steps (delimitedSteps measure mode n)).Takes spaced
  | .leaf _ _ _, _, hdelimited, _, _ => by cases hdelimited
  | .branch _ _ shape _ content, h, hdelimited, p, hp => by
    cases shape with
    | argument space opening closing =>
      have hempty : opening.isEmpty = false := by simpa [isDelimitedArgument] using hdelimited
      rw [argumentWraps, hempty, if_neg Bool.false_ne_true, Bool.and_eq_true, Bool.and_eq_true] at h
      obtain ⟨⟨hopening, hclosing⟩, hcontent⟩ := h
      obtain ⟨last, hready⟩ := ready_flow measure mode false content false none _ hcontent
        (.takes (takes_content hp (.text hopening))) (EndsOpen.isEmpty_steps ⟨[], _, rfl⟩ p)
      rw [delimitedSteps, endsInComment_eq_false (comment?_of_contentWraps hcontent),
        if_neg Bool.false_ne_true, List.append_nil, steps_append]
      refine takes_content ?_ (.text hclosing)
      rcases hready.takes_or with htakes | ⟨hclosed, _⟩
      · exact htakes
      · cases hclosed
    | _ => cases hdelimited

end

/-- **The layout of a document that wraps** is a fill whose parts are a body. -/
theorem exists_body_doc (measure : Bytes → Nat) {tree : Node} (h : tree.isWrapped spaced = true) :
    ∃ ps, doc measure tree = .fill ps ∧ Body spaced .parts ps := by
  unfold Node.isWrapped at h
  split at h
  · next content =>
    obtain ⟨last, hready⟩ := ready_flow measure .text (hasDocumentClass content) content false none {} h
      (.takes Paragraph.takes_empty) rfl
    exact ⟨_, rfl, body_flow measure .text _ (comment?_of_contentWraps h) hready⟩
  · cases h

end Print

/-! ## the whole program -/

namespace Format

open Layout (IsMeasure Columns)
open Layout.Page (Kept Loose)

/-- A text whose last line holds something only gets a newline. -/
theorem endLine_append (s : Bytes) {last : Bytes} (hne : last ≠ []) (hlast : Byte.newline ∉ last) :
    endLine (s ++ last) = s ++ last ++ [Byte.newline] := by
  obtain ⟨front, b, hfront⟩ := (List.eq_nil_or_concat last).resolve_left hne
  rw [List.concat_eq_append] at hfront
  subst hfront
  have hb : b ≠ Byte.newline := fun heq => hlast (by simp [heq])
  rw [← List.append_assoc, endLine_concat hb]

/-- The end of a text loses only empty lines. -/
theorem endLine_unlines {lines : List Bytes} {last : Bytes} (hlines : ∀ line ∈ lines, Byte.newline ∉ line)
    (hlast : Byte.newline ∉ last) :
    ∃ kept, endLine (Bytes.unlines lines ++ last) = Bytes.unlines kept ∧ kept ⊆ lines ++ [last] := by
  induction lines using List.reverseRecOn generalizing last with
  | nil =>
    by_cases hne : last = []
    · exact ⟨[], by rw [hne]; rfl, List.nil_subset _⟩
    · refine ⟨[] ++ [last], ?_, List.Subset.refl _⟩
      rw [endLine_append _ hne hlast, Bytes.unlines_append_singleton]
  | append_singleton lines line ih =>
    by_cases hne : last = []
    · have hline : Byte.newline ∉ line := hlines line (by simp)
      obtain ⟨kept, hend, hsub⟩ := ih (fun l hl => hlines l (List.mem_append_left _ hl)) hline
      refine ⟨kept, ?_, fun l hl => List.mem_append_left _ (hsub hl)⟩
      rw [hne, List.append_nil, Bytes.unlines_append_singleton, endLine_concat_newline, hend]
    · refine ⟨lines ++ [line] ++ [last], ?_, List.Subset.refl _⟩
      rw [endLine_append _ hne hlast, Bytes.unlines_append_singleton (lines ++ [line])]

/-- A line that is kept and too long is an indentation and a run, or only its last run is too long. -/
theorem run_of_kept {page : Layout.Page} {spaced : Bool} {line : Bytes} (hmeasure : IsMeasure page.measure)
    (h : Kept page spaced line) (hlong : page.width < page.measure line) :
    (∃ n run, line = Bytes.spaces n ++ run ∧ Byte.space ∉ run ∧ page.width < n + page.measure run) ∨
      spaced = true ∧ ∃ front run, line = front ++ Byte.space :: run ∧ Byte.space ∉ run ∧
        page.measure front ≤ page.width := by
  cases h with
  | within columns fits =>
    have hle := columns.measure_le hmeasure
    omega
  | loose loose =>
    cases loose with
    | @run n run solid =>
      have hindent := (Columns.spaces n).measure_le hmeasure
      have hle := hmeasure.append (Bytes.spaces n) run (Bytes.isWhole_of_isSolid solid)
      exact .inl ⟨n, run, rfl, Bytes.space_notMem_of_isSolid solid, by omega⟩
    | @front k front run allowed columns fits solid =>
      have hle := columns.measure_le hmeasure
      exact .inr ⟨allowed, front, run, rfl, Bytes.space_notMem_of_isSolid solid, by omega⟩

theorem exists_document_of_any {registry : Registry} {src : Bytes} {p : Node → Bool}
    (h : (Parse.document registry src).toOption.any p = true) :
    ∃ tree, Parse.document registry src = .ok tree ∧ p tree = true := by
  cases htree : Parse.document registry src with
  | error e =>
    rw [htree] at h
    cases h
  | ok tree =>
    rw [htree] at h
    exact ⟨tree, rfl, h⟩

/-- **Lines respect the width.** A source whose tree wraps can be formatted, and every line of the result
    that is too long for the width holds, after its indentation, one run without a space that is too long by
    itself. Where nested sequences hold spaces, a line may also be too long with its last run only. -/
theorem overflow_is_run {options : Options} {src : Bytes} {tree : Node} {spaced : Bool}
    (hmeasure : IsMeasure options.measure) (hwidth : 0 < options.width)
    (htree : Parse.document options.registry src = .ok tree)
    (hwraps : (tree.annotate options.registry).isWrapped spaced = true) :
    ∃ out, format options src = .ok out ∧ ∀ line ∈ out.splitOn Byte.newline,
      options.width < options.measure line →
      (∃ n run, line = Bytes.spaces n ++ run ∧ Byte.space ∉ run ∧
        options.width < n + options.measure run) ∨
      spaced = true ∧ ∃ front run, line = front ++ Byte.space :: run ∧ Byte.space ∉ run ∧
        options.measure front ≤ options.width := by
  let page := pageOf options.measure options.width options.indent
  have hpage : page.width = options.width := by
    simp only [page, pageOf, positiveOr, if_neg (Int.not_le.2 hwidth)]
    omega
  obtain ⟨ps, hdoc, hbody⟩ := Print.exists_body_doc options.measure hwraps
  obtain ⟨lines, last, hrender, hlines, hlast⟩ := hbody.exists_lines page (by omega)
  obtain ⟨kept, hend, hsub⟩ := endLine_unlines (fun line hline => (hlines line hline).newline_notMem)
    hlast.newline_notMem
  have hkept : ∀ line ∈ kept ++ [[]], Kept page spaced line := by
    intro line hline
    rcases List.mem_append.1 hline with hline | hline
    · rcases List.mem_append.1 (hsub hline) with hline | hline
      · exact hlines line hline
      · exact List.mem_singleton.1 hline ▸ hlast
    · exact List.mem_singleton.1 hline ▸ .loose (Layout.Page.loose_spaces 0)
  refine ⟨Bytes.unlines kept, ?_, fun line hline hlong => ?_⟩
  · rw [format, run, htree, ← hend, ← hrender, ← hdoc]
    rfl
  · rw [← List.append_nil (Bytes.unlines kept), Bytes.splitOn_unlines
      (fun line hline => (hkept line (List.mem_append_left _ hline)).newline_notMem) List.not_mem_nil] at hline
    rw [← hpage] at hlong ⊢
    exact run_of_kept hmeasure (hkept line hline) hlong

-- the closing brace comes after the fill of the argument, which does not count it
example : (format { width := 18 } (bytes "\\caption\x7baaaa bbbb\x7d")).toOption =
    some (bytes "\\caption\x7baaaa bbbb\x7d\n") := by decide +kernel

/-- A fraction at the end of an argument, and a block. The line of the fraction is too long. -/
theorem overflow_is_run_fraction :
    ∃ src out, src = bytes
      "a b \\emph\x7bcc \\frac\x7bd\x7d\x7be\x7d\x7d f \\begin\x7bcenter\x7d g h \\end\x7bcenter\x7d" ∧
      format { width := 8 } src = .ok out ∧ ∀ line ∈ out.splitOn Byte.newline,
      8 < Text.displayWidth line → ∃ n run, line = Bytes.spaces n ++ run ∧ Byte.space ∉ run ∧
        8 < n + Text.displayWidth run := by
  have hwraps : ((Parse.document .builtin (bytes
      "a b \\emph\x7bcc \\frac\x7bd\x7d\x7be\x7d\x7d f \\begin\x7bcenter\x7d g h \\end\x7bcenter\x7d")).toOption.any
      fun tree => (tree.annotate .builtin).isWrapped false) = true := by decide +kernel
  obtain ⟨tree, htree, hwraps⟩ := exists_document_of_any hwraps
  obtain ⟨out, hout, hlines⟩ := @overflow_is_run { width := 8 } _ tree false Text.isMeasure_displayWidth
    (by decide) htree hwraps
  refine ⟨_, out, rfl, hout, fun line hline hlong => ?_⟩
  obtain ⟨n, run, hline, hrun, hover⟩ | hspaced := hlines line hline (Int.ofNat_lt.2 hlong)
  · exact ⟨n, run, hline, hrun, Int.ofNat_lt.1 hover⟩
  · cases hspaced.1

end Format

end TexTidy
