import TexTidy.Proofs.CommentLine
import TexTidy.Proofs.Filling

/-!
# TexTidy.Proofs.Nested

Sequences that are laid out as fills of their own inside a line: the arguments of a command, the content of a
formula. Such a sequence is *neat* (`Node.areNeat`) if it holds no line break and no unbreakable blank. Its
layout is then a row of runs with optional line breaks between them (`neat_nodeDoc`), and it can also flow with
the paragraph around it (`neatStep_flow`).
-/

namespace TexTidy

namespace Node

/-- An argument of a command or an environment. -/
def isArgument : Node → Bool
  | .branch _ _ (.argument _ _ _) _ _ => true
  | _ => false

/-- The node breaks no line before or after it. -/
def isCalm (n : Node) : Bool :=
  !n.standsAlone && !n.hints.breakBefore && !n.hints.breakAfter

mutual

/-- Whether a node in a nested sequence holds no line break and no unbreakable blank. With `spaced`, white
    space may stand in the sequence. -/
def isNeat (spaced : Bool) : Node → Bool
  | .leaf _ _ (.text content) => content.isSolid
  | .leaf _ _ (.space _) => spaced
  | .branch _ _ (.argument space opening closing) _ content =>
    (if opening.isEmpty then space.isEmpty else opening.isSolid && closing.isSolid) && areNeat spaced content
  | .branch _ _ (.command escape name) args _ =>
    (escape ++ name).isSolid && args.all isArgument && areNeat spaced args
  | .branch _ _ (.inlineMath opening closing) _ content =>
    opening.isSolid && closing.isSolid && !content.all isPlainSpace && areNeat spaced content
  | _ => false

/-- Whether all nodes of a nested sequence are neat. -/
def areNeat (spaced : Bool) : List Node → Bool
  | [] => true
  | n :: ns => n.isCalm && isNeat spaced n && areNeat spaced ns

end

end Node

namespace Print

open Node (isNeat areNeat)
open Layout (Doc Neat Joint Body Break)

variable {spaced : Bool}

theorem any_present_eq_false {o : Option Node} {q : Node → Bool} (h : ∀ m, o = some m → q m = false) :
    (present o).any q = false := by
  cases o with
  | none => rfl
  | some m => cases hm : m.isMissing <;> simp [present, hm, h m rfl]

/-- What a calm node has before and after it. -/
theorem calm_iff {n : Node} : n.isCalm = true ↔
    n.standsAlone = false ∧ n.hints.breakBefore = false ∧ n.hints.breakAfter = false := by
  simp [Node.isCalm, and_assoc]

/-- A space between calm nodes is a space or a line break. -/
theorem spaceBetween_calm {previous next : Option Node} (hp : ∀ m, previous = some m → m.isCalm = true)
    (hn : ∀ m, next = some m → m.isCalm = true) :
    spaceBetween false (present previous) (present next) = .line := by
  rw [spaceBetween, any_present_eq_false fun m hm => (calm_iff.1 (hn m hm)).1,
    any_present_eq_false fun m hm => (calm_iff.1 (hp m hm)).1,
    any_present_eq_false fun m hm => (calm_iff.1 (hn m hm)).2.1,
    any_present_eq_false fun m hm => (calm_iff.1 (hp m hm)).2.2]
  rfl

theorem neatStep_formulaBreak (mode : Mode) {previous : Option Node} (n : Node)
    (hp : ∀ m, previous = some m → m.isCalm = true) :
    ∀ s ∈ formulaBreak mode (present previous) n, NeatStep spaced s := by
  unfold formulaBreak
  split
  · next m hm =>
    have hcalm : m.hints.breakAfter = false :=
      (calm_iff.1 (hp m (Option.filter_eq_some_iff.1 hm).1)).2.2
    split
    · exact List.forall_mem_nil _
    · rw [hcalm]
      exact List.forall_mem_singleton.2 .ifOpen
  · exact List.forall_mem_nil _

theorem comment?_of_isNeat {n : Node} (h : n.isNeat spaced = true) : n.comment? = none := by
  unfold Node.comment?
  split
  · simp [isNeat] at h
  · rfl

theorem areNeat_iff {ns : List Node} :
    areNeat spaced ns = true ↔ ∀ n ∈ ns, n.isCalm = true ∧ n.isNeat spaced = true := by
  induction ns with
  | nil => simp [areNeat]
  | cons n ns ih => simp [areNeat, ih]

theorem endsInComment_of_areNeat {ns : List Node} (h : areNeat spaced ns = true) :
    endsInComment ns = false :=
  endsInComment_eq_false fun n hn => comment?_of_isNeat (areNeat_iff.1 h n hn).2

/-- Content between delimiters is neat if what stands between them is. -/
theorem neat_delimited {opening closing : Bytes} {content : List Node} {body : Doc}
    (hsolid : (opening.isSolid && closing.isSolid) = true) (hcontent : areNeat spaced content = true)
    (hbody : Neat spaced .item [body]) : Neat spaced .item [delimited opening closing content body] := by
  rw [Bool.and_eq_true] at hsolid
  rw [delimited, endsInComment_of_areNeat hcontent]
  exact .concat (.cons (.text hsolid.1) (.cons hbody (.cons (.text hsolid.2) .nil)))

theorem isSpace_of_isArgument {n : Node} (h : n.isArgument = true) : n.isSpace = false := by
  unfold Node.isArgument at h
  split at h
  · rfl
  · cases h

/-- The steps of a node that is neither white space nor a comment. -/
theorem nodeSteps_eq {mode : Mode} {preamble : Bool} {previous next : Option Node} {n : Node}
    {own : List Step} (hspace : n.isSpace = false) (hcomment : n.comment? = none) :
    nodeSteps mode preamble previous next n own =
      (if n.standsAlone || (n.command?.isSome && n.hints.breakBefore) then [.unlessEmpty .forced] else []) ++
      (if isInline mode n then [] else formulaBreak mode previous n) ++ own := by
  unfold nodeSteps
  split
  · cases hspace
  · cases hspace
  · cases hcomment
  · rfl

/-- White space in a nested sequence. -/
theorem neatStep_space (mode : Mode) (previous : Option Node) {n : Node} (ns : List Node)
    (hspace : n.isSpace = true) (hn : n.isNeat spaced = true) (hns : areNeat spaced ns = true)
    (hp : ∀ m, previous = some m → m.isCalm = true) (own : List Step) :
    ∀ s ∈ nodeSteps mode false (present previous) (present ns.head?) n own, NeatStep spaced s := by
  unfold Node.isSpace at hspace
  split at hspace
  · rw [nodeSteps, spaceBetween_calm hp fun m hm => (areNeat_iff.1 hns m (List.mem_of_head? hm)).1]
    exact List.forall_mem_singleton.2 (.space hn)
  · cases hn
  · cases hspace

mutual

/-- **The layout of a neat node is neat.** -/
theorem neat_nodeDoc (measure : Bytes → Nat) (mode : Mode) : ∀ n : Node, n.isNeat spaced = true →
    n.isSpace = false → Neat spaced .item [nodeDoc measure mode n]
  | .leaf _ _ l, h, hspace => by
    cases l with
    | text content => exact .text h
    | space raw => cases hspace
    | _ => cases h
  | .branch _ hints shape args content, h, _ => by
    have hbody (mode : Mode) (hcontent : areNeat spaced content = true) :
        Neat spaced .item [paragraph (flow measure mode false false false none content)] :=
      neat_paragraph (neatStep_flow measure mode false none content hcontent fun _ h => by cases h)
    cases shape with
    | argument space opening closing =>
      rw [isNeat, Bool.and_eq_true] at h
      obtain ⟨hsolid, hcontent⟩ := h
      rw [nodeDoc]
      split at hsolid
      · next hopening =>
        rw [if_pos hopening, if_pos hsolid]
        exact hbody mode hcontent
      · next hopening =>
        rw [if_neg hopening]
        exact neat_delimited hsolid hcontent (hbody mode hcontent)
    | command escape name =>
      simp only [isNeat, Bool.and_eq_true] at h
      obtain ⟨⟨hsolid, harguments⟩, hargs⟩ := h
      have hdoc : Neat spaced .item [Doc.concat [.text (escape ++ name),
          .concat (nodeDocs measure (argumentMode hints mode) args)]] :=
        .concat (.cons (.text hsolid)
          (.cons (.concat (neat_nodeDocs measure _ args harguments hargs)) .nil))
      rw [nodeDoc]
      split
      · exact .indent hdoc
      · exact hdoc
    | inlineMath opening closing =>
      rw [isNeat, Bool.and_eq_true, Bool.and_eq_true, Bool.not_eq_true'] at h
      obtain ⟨⟨hsolid, hplain⟩, hcontent⟩ := h
      rw [nodeDoc, hplain, if_neg Bool.false_ne_true]
      exact neat_delimited hsolid hcontent (hbody .math hcontent)
    | _ => cases h

theorem neat_nodeDocs (measure : Bytes → Nat) (mode : Mode) : ∀ ns : List Node,
    ns.all Node.isArgument = true → areNeat spaced ns = true →
    Neat spaced .items (nodeDocs measure mode ns)
  | [], _, _ => .nil
  | n :: ns, harguments, h => by
    simp only [List.all_cons, Bool.and_eq_true] at harguments
    simp only [areNeat, Bool.and_eq_true] at h
    exact .cons (neat_nodeDoc measure mode n h.1.2 (isSpace_of_isArgument harguments.1))
      (neat_nodeDocs measure mode ns harguments.2 h.2)

/-- The steps of a nested sequence. -/
theorem neatStep_flow (measure : Bytes → Nat) (mode : Mode) (inked : Bool) (previous : Option Node) :
    ∀ ns : List Node, areNeat spaced ns = true → (∀ m, previous = some m → m.isCalm = true) →
      ∀ s ∈ flow measure mode false false inked previous ns, NeatStep spaced s
  | [], _, _ => List.forall_mem_nil _
  | n :: ns, h, hp => by
    simp only [areNeat, Bool.and_eq_true] at h
    obtain ⟨⟨hcalm, hn⟩, hns⟩ := h
    rw [flow, if_neg (by simp)]
    refine List.forall_mem_append.2 ⟨?_, neatStep_flow measure mode (inked || !n.isSpace) (some n) ns hns
      fun m hm => Option.some.inj hm ▸ hcalm⟩
    cases hspace : n.isSpace with
    | true => exact neatStep_space mode previous ns hspace hn hns hp _
    | false =>
      obtain ⟨hstands, hbefore, _⟩ := calm_iff.1 hcalm
      rw [nodeSteps_eq hspace (comment?_of_isNeat hn), hstands, hbefore, Bool.and_false, Bool.or_false,
        if_neg Bool.false_ne_true, List.nil_append]
      split
      · exact neatStep_inlineSteps measure mode n hn
      · exact List.forall_mem_append.2 ⟨neatStep_formulaBreak mode n hp,
          List.forall_mem_singleton.2 (.content (neat_nodeDoc measure mode n hn hspace))⟩

theorem neatStep_inlineSteps (measure : Bytes → Nat) (mode : Mode) : ∀ n : Node,
    n.isNeat spaced = true → ∀ s ∈ inlineSteps measure mode n, NeatStep spaced s
  | .leaf _ _ _, _ => List.forall_mem_nil _
  | .branch _ hints shape args _, h => by
    cases shape with
    | command escape name =>
      simp only [isNeat, Bool.and_eq_true] at h
      obtain ⟨⟨hsolid, harguments⟩, hargs⟩ := h
      exact List.forall_mem_cons.2 ⟨.content (.text hsolid),
        neatStep_argumentSteps measure _ args harguments hargs⟩
    | _ => exact List.forall_mem_nil _

theorem neatStep_argumentSteps (measure : Bytes → Nat) (mode : Mode) : ∀ ns : List Node,
    ns.all Node.isArgument = true → areNeat spaced ns = true →
    ∀ s ∈ argumentSteps measure mode ns, NeatStep spaced s
  | [], _, _ => List.forall_mem_nil _
  | n :: ns, harguments, h => by
    simp only [List.all_cons, Bool.and_eq_true] at harguments
    simp only [areNeat, Bool.and_eq_true] at h
    rw [argumentSteps]
    refine List.forall_mem_append.2 ⟨?_, neatStep_argumentSteps measure mode ns harguments.2 h.2⟩
    split
    · next hdelimited => exact neatStep_delimitedSteps measure mode n h.1.2 hdelimited
    · exact List.forall_mem_singleton.2
        (.content (neat_nodeDoc measure mode n h.1.2 (isSpace_of_isArgument harguments.1)))

theorem neatStep_delimitedSteps (measure : Bytes → Nat) (mode : Mode) : ∀ n : Node,
    n.isNeat spaced = true → isDelimitedArgument n = true →
    ∀ s ∈ delimitedSteps measure mode n, NeatStep spaced s
  | .leaf _ _ _, _, hdelimited => by cases hdelimited
  | .branch _ _ shape _ content, h, hdelimited => by
    cases shape with
    | argument space opening closing =>
      have hempty : opening.isEmpty = false := by simpa [isDelimitedArgument] using hdelimited
      rw [isNeat, hempty, if_neg Bool.false_ne_true, Bool.and_eq_true, Bool.and_eq_true] at h
      obtain ⟨⟨hopening, hclosing⟩, hcontent⟩ := h
      rw [delimitedSteps, endsInComment_of_areNeat hcontent, if_neg Bool.false_ne_true, List.append_nil]
      refine List.forall_mem_append.2 ⟨List.forall_mem_cons.2 ⟨.content (.text hopening), ?_⟩,
        List.forall_mem_singleton.2 (.content (.text hclosing))⟩
      exact neatStep_flow measure mode false none content hcontent fun _ h => by cases h
    | _ => cases hdelimited

end

end Print

end TexTidy
