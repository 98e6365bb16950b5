import TexTidy.Print
import TexTidy.Registry.Hints
import TexTidy.Proofs.ReadingModes

/-!
# TexTidy.Proofs.Agreement

Whether a sequence is printed in the mode in which it was read. `Print.docBy` is the printer that is told: it lays
out each sequence in the mode that an assignment gives for the place where the sequence starts, and hands no mode
from a node to its parts. If the assignment holds the modes in which a document was read, it gives the layout that
`Print.doc` gives (`doc_eq_docBy`).

There is one exception. The arguments of a math environment are read in the mode around the environment but are
printed as a formula, and so are the parts of these arguments that set no mode of their own. The condition
`Node.ArguedInFormula` rules out math environments that stand in text and have arguments.
-/

namespace TexTidy

open Layout (Doc)

/-! ## the printer that is told the modes -/

namespace Print

/-- The mode of a sequence, by where it starts. -/
def modeOf (modes : Nat → Mode) (nodes : List Node) : Mode :=
  (nodes.head?.map fun n => modes n.span.start).getD .text

mutual

/-- The layout of a node. -/
def docBy (measure : Bytes → Nat) (modes : Nat → Mode) : Node → Doc
  | .branch _ _ .document _ content =>
    paragraph (flowBy measure modes (modeOf modes content) (hasDocumentClass content) true false none content)
  | .branch _ _ (.argument space opening closing) _ content =>
    let body := paragraph (flowBy measure modes (modeOf modes content) false false false none content)
    if opening.isEmpty then
      if space.isEmpty then body else .concat [.text [Byte.space], body]
    else delimited opening closing content body
  | .branch _ hints (.command escape name) args _ =>
    let d := Doc.concat [.text (escape ++ name), .concat (docsBy measure modes args)]
    if hints.hangingIndent then .indent d else d
  | .branch _ hints (.environment name) args content
  | .branch _ hints (.mathEnvironment name) args content =>
    let opening := Doc.concat [.text (Cursor.beginMarker name), .concat (docsBy measure modes args)]
    let closing := Doc.text (Cursor.endMarker name)
    if isTable hints content then
      .concat [opening, tableDoc measure args content, .hardLine, closing]
    else
      block opening closing content
        (paragraph (flowBy measure modes (modeOf modes content) false true false none content))
  | .branch _ _ (.verbatim name body) args _ =>
    .concat [.text (Cursor.beginMarker name), .concat (docsBy measure modes args), .text body,
      .text (Cursor.endMarker name)]
  | .branch _ _ (.displayMath opening closing) _ content =>
    block (.text opening) (.text closing) content
      (paragraph (flowBy measure modes (modeOf modes content) false true false none content))
  | .branch _ _ (.inlineMath opening closing) _ content =>
    if content.all Node.isPlainSpace then
      .text (if opening = [Byte.dollar] then bytes "$ $" else opening ++ closing)
    else
      delimited opening closing content
        (paragraph (flowBy measure modes (modeOf modes content) false false false none content))
  -- leaves and groups hold no sequence that is laid out
  | n => nodeDoc measure .text n

/-- The layouts of the nodes of a sequence. -/
def docsBy (measure : Bytes → Nat) (modes : Nat → Mode) : List Node → List Doc
  | [] => []
  | n :: ns => docBy measure modes n :: docsBy measure modes ns

/-- The steps of a sequence whose mode is given. -/
def flowBy (measure : Bytes → Nat) (modes : Nat → Mode) (mode : Mode) (preamble trim inked : Bool)
    (previous : Option Node) : List Node → List Step
  | [] => []
  | n :: ns =>
    (if trim && n.isSpace && (!inked || ns.all Node.isSpace) then []
      else nodeSteps mode preamble (present previous) (present ns.head?) n
        (if isInline mode n then inlineBy measure modes n else [.content (docBy measure modes n)])) ++
    flowBy measure modes mode preamble trim (inked || !n.isSpace) (some n) ns

/-- The steps of a command that flows with the paragraph around it. -/
def inlineBy (measure : Bytes → Nat) (modes : Nat → Mode) : Node → List Step
  | .branch _ _ (.command escape name) args _ =>
    .content (.text (escape ++ name)) :: argumentStepsBy measure modes args
  | _ => []

/-- The steps of arguments that flow with the paragraph around their command. -/
def argumentStepsBy (measure : Bytes → Nat) (modes : Nat → Mode) : List Node → List Step
  | [] => []
  | n :: ns =>
    (if isDelimitedArgument n then delimitedBy measure modes n else [.content (docBy measure modes n)]) ++
    argumentStepsBy measure modes ns

/-- The steps of an argument between delimiters that flows with the paragraph around its command. -/
def delimitedBy (measure : Bytes → Nat) (modes : Nat → Mode) : Node → List Step
  | .branch _ _ (.argument _ opening closing) _ content =>
    .content (.text opening) :: flowBy measure modes (modeOf modes content) false false false none content ++
    (if endsInComment content then [.separator .forced] else []) ++ [.content (.text closing)]
  | _ => []

end

/-! ## agreement of parts -/

section

variable (measure : Bytes → Nat) (modes : Nat → Mode) (mode : Mode)

/-- A node is laid out alike, whether by itself or in the paragraph around it. -/
def NodeAgrees (n : Node) : Prop :=
  nodeDoc measure mode n = docBy measure modes n ∧ inlineSteps measure mode n = inlineBy measure modes n

/-- Arguments are laid out alike, whether by themselves or in the paragraph around their command. -/
def ArgumentsAgree (args : List Node) : Prop :=
  nodeDocs measure mode args = docsBy measure modes args ∧
    argumentSteps measure mode args = argumentStepsBy measure modes args

/-- A sequence is laid out alike. -/
def ContentAgrees (content : List Node) : Prop :=
  ∀ preamble trim inked previous, flow measure mode preamble trim inked previous content =
    flowBy measure modes mode preamble trim inked previous content

variable {measure modes mode}

attribute [local simp] nodeDoc docBy

theorem contentAgrees_nil : ContentAgrees measure modes mode [] :=
  fun _ _ _ _ => rfl

theorem ContentAgrees.cons {n : Node} {ns : List Node} (hn : NodeAgrees measure modes mode n)
    (hns : ContentAgrees measure modes mode ns) : ContentAgrees measure modes mode (n :: ns) := by
  intro preamble trim inked previous
  rw [flow, flowBy, hn.1, hn.2, hns]

theorem nodeAgrees_leaf (s : Span) (h : Hints) (l : Leaf) : NodeAgrees measure modes mode (.leaf s h l) := by
  cases l <;> exact ⟨rfl, rfl⟩

/-- A sequence is laid out alike by a printer that knows its mode. -/
theorem ContentAgrees.flow_eq {content : List Node} (h : ContentAgrees measure modes mode content)
    (hmode : ∀ n ∈ content.head?, modes n.span.start = mode) (preamble trim inked : Bool) (previous : Option Node) :
    flow measure mode preamble trim inked previous content =
      flowBy measure modes (modeOf modes content) preamble trim inked previous content := by
  cases content with
  | nil => rfl
  | cons n ns =>
    rw [h, modeOf, List.head?_cons, Option.map_some, Option.getD_some, hmode n rfl]

/-- A node without parts is laid out alike in every mode. -/
theorem nodeAgrees_of_parts {n : Node} (h : n.parts = []) : NodeAgrees measure modes mode n := by
  cases n with
  | leaf s hints l => exact nodeAgrees_leaf s hints l
  | branch s hints shape args content =>
    obtain ⟨rfl, rfl⟩ := List.append_eq_nil_iff.1 h
    cases shape <;> exact ⟨rfl, rfl⟩

theorem nodeAgrees_command {s : Span} {hints : Hints} {escape name : Bytes} {args content : List Node}
    (h : ArgumentsAgree measure modes (argumentMode hints mode) args) :
    NodeAgrees measure modes mode (.branch s hints (.command escape name) args content) := by
  refine ⟨?_, ?_⟩
  · simp [h.1]
  · rw [inlineSteps, inlineBy, h.2]

theorem nodeAgrees_group {s : Span} {hints : Hints} {args content : List Node} :
    NodeAgrees measure modes mode (.branch s hints .group args content) :=
  ⟨rfl, rfl⟩

theorem nodeAgrees_environment {s : Span} {hints : Hints} {name : Bytes} {args content : List Node}
    (hargs : ArgumentsAgree measure modes mode args) (h : ContentAgrees measure modes mode content)
    (hmode : ∀ n ∈ content.head?, modes n.span.start = mode) :
    NodeAgrees measure modes mode (.branch s hints (.environment name) args content) :=
  ⟨by simp [hargs.1, h.flow_eq hmode], rfl⟩

theorem nodeAgrees_mathEnvironment {s : Span} {hints : Hints} {name : Bytes} {args content : List Node}
    (hargs : ArgumentsAgree measure modes .math args) (h : ContentAgrees measure modes .math content)
    (hmode : ∀ n ∈ content.head?, modes n.span.start = .math) :
    NodeAgrees measure modes mode (.branch s hints (.mathEnvironment name) args content) :=
  ⟨by simp [hargs.1, h.flow_eq hmode], rfl⟩

theorem nodeAgrees_verbatim {s : Span} {hints : Hints} {name body : Bytes} {args content : List Node}
    (hargs : ArgumentsAgree measure modes mode args) :
    NodeAgrees measure modes mode (.branch s hints (.verbatim name body) args content) :=
  ⟨by simp [hargs.1], rfl⟩

theorem nodeAgrees_inlineMath {s : Span} {hints : Hints} {opening closing : Bytes} {args content : List Node}
    (h : ContentAgrees measure modes .math content) (hmode : ∀ n ∈ content.head?, modes n.span.start = .math) :
    NodeAgrees measure modes mode (.branch s hints (.inlineMath opening closing) args content) :=
  ⟨by simp [h.flow_eq hmode], rfl⟩

theorem nodeAgrees_displayMath {s : Span} {hints : Hints} {opening closing : Bytes} {args content : List Node}
    (h : ContentAgrees measure modes .math content) (hmode : ∀ n ∈ content.head?, modes n.span.start = .math) :
    NodeAgrees measure modes mode (.branch s hints (.displayMath opening closing) args content) :=
  ⟨by simp [h.flow_eq hmode], rfl⟩

theorem argumentsAgree_nil : ArgumentsAgree measure modes mode [] :=
  ⟨rfl, rfl⟩

theorem ArgumentsAgree.cons {s : Span} {hints : Hints} {space opening closing : Bytes} {as content ns : List Node}
    (h : ContentAgrees measure modes mode content) (hmode : ∀ n ∈ content.head?, modes n.span.start = mode)
    (hns : ArgumentsAgree measure modes mode ns) :
    ArgumentsAgree measure modes mode (.branch s hints (.argument space opening closing) as content :: ns) := by
  have hflow := h.flow_eq hmode
  refine ⟨?_, ?_⟩
  · simp [nodeDocs, docsBy, hns.1, hflow]
  · simp [argumentSteps, argumentStepsBy, hns.2, delimitedSteps, delimitedBy, hflow]

end

/-- The arguments of a command are printed in the mode in which they are read. -/
theorem argumentMode_hints (r : Registry) (name : Bytes) (mode : Mode) :
    argumentMode (r.hints (.command Parse.escape name)) mode = Parse.commandMode r name mode := by
  have hescape : Parse.escape = [Byte.backslash] := rfl
  rw [argumentMode, Parse.commandMode, Registry.hints, if_pos hescape]
  cases r.command? name <;> rfl

end Print

/-! ## agreement of derivations -/

/-- A math environment with arguments. -/
def Node.isArguedFormula : Node → Bool
  | .branch _ _ (.mathEnvironment _) (_ :: _) _ => true
  | _ => false

/-- A math environment that has arguments stands in a formula. -/
def Node.ArguedInFormula (modes : Nat → Mode) (n : Node) : Prop :=
  n.isArguedFormula = true → modes n.span.start = .math

theorem Node.span_annotate (r : Registry) (n : Node) : (n.annotate r).span = n.span := by
  cases n <;> rfl

theorem Node.parts_annotate {r : Registry} {n : Node} (h : n.parts = []) : (n.annotate r).parts = [] := by
  cases n with
  | leaf s hints l => rfl
  | branch s hints shape args content =>
    obtain ⟨rfl, rfl⟩ := List.append_eq_nil_iff.1 h
    rfl

namespace Parse

open Print (NodeAgrees ArgumentsAgree ContentAgrees)

variable {r : Registry} {measure : Bytes → Nat} {modes : Nat → Mode} {log : Log} {mode : Mode}

theorem shape_of_formula? {k : Token.Kind} {closer : Closer} {shape : Shape}
    (h : formula? k = some (closer, shape)) :
    ∃ opening closing, shape = .displayMath opening closing ∨ shape = .inlineMath opening closing := by
  rcases formula?_cases h with ⟨-, -, rfl⟩ | ⟨-, -, rfl⟩ | ⟨-, -, rfl⟩
  · exact ⟨_, _, .inl rfl⟩
  · exact ⟨_, _, .inr rfl⟩
  · exact ⟨_, _, .inl rfl⟩

/-- Where a sequence starts, the log has its mode. -/
theorem Logs.mode_of_head {closer : Closer} {c : Cursor} {s : Sequence} (h : Logs r (.sequence mode closer c s) log)
    (hmodes : ∀ p m, (p, m) ∈ log → modes p = m) :
    ∀ n ∈ (Node.annotateAll r s.nodes).head?, modes n.span.start = mode := by
  intro n hn
  cases h with
  | stop token closed => cases hn
  | @next _ _ _ _ _ _ n' _ tail _ _ token pass more head rest =>
    have hspan := head.derives.moves.2
    have hfirst : modes n'.span.start = mode := by
      rw [hspan]
      exact hmodes _ _ List.mem_cons_self
    revert hn
    unfold link
    split
    all_goals
      intro hn
      rw [Node.annotateAll, List.head?_cons, Option.mem_some_iff] at hn
      subst hn
      rw [Node.span_annotate]
      exact hfirst

/-- What is read in the given modes is laid out alike. -/
def Judgement.Agrees (r : Registry) (measure : Bytes → Nat) (modes : Nat → Mode) : Judgement → Prop
  | .sequence mode _ _ s => Node.All (Node.ArguedInFormula modes) s.nodes →
    ContentAgrees measure modes mode (Node.annotateAll r s.nodes)
  | .item mode c n _ => modes c.pos = mode → Node.Each (Node.ArguedInFormula modes) n →
    NodeAgrees measure modes mode (n.annotate r)
  | .arguments mode _ _ args _ => Node.All (Node.ArguedInFormula modes) args →
    ArgumentsAgree measure modes mode (Node.annotateAll r args)

/-- An argument between delimiters in front of others. -/
theorem argumentsAgree_of_body {closer : Closer} {kinds : List ArgKind} {c d e : Cursor} {body : Sequence}
    {span : Span} {space opening closing : Bytes} {args : List Node} {own others : Log}
    (content : Logs r (.sequence mode closer c body) own)
    (hmodes : ∀ p m, (p, m) ∈ own ++ others → modes p = m)
    (ihContent : (∀ p m, (p, m) ∈ own → modes p = m) →
      (Judgement.sequence mode closer c body).Agrees r measure modes)
    (ihOthers : (∀ p m, (p, m) ∈ others → modes p = m) →
      (Judgement.arguments mode kinds d args e).Agrees r measure modes)
    (hall : Node.All (Node.ArguedInFormula modes)
      (.branch span {} (.argument space opening closing) [] body.nodes :: args)) :
    ArgumentsAgree measure modes mode
      (Node.annotateAll r (.branch span {} (.argument space opening closing) [] body.nodes :: args)) := by
  obtain ⟨hbody, hargs⟩ := Node.all_cons_iff.1 hall
  have hown : ∀ p m, (p, m) ∈ own → modes p = m := fun p m hmem => hmodes p m (List.mem_append_left _ hmem)
  exact .cons (ihContent hown (Node.each_branch_iff.1 hbody).2.2) (content.mode_of_head hown)
    (ihOthers (fun p m hmem => hmodes p m (List.mem_append_right _ hmem)) hargs)

theorem all_of_all_link {P : Node → Prop} {n : Node} {ns : List Node}
    (hflag : ∀ {s h c before after}, P (.leaf s h (.comment c before)) → P (.leaf s h (.comment c after)))
    (h : Node.All P (link n ns)) : Node.Each P n ∧ Node.All P ns := by
  unfold link at h
  split at h
  · obtain ⟨hn, hns⟩ := Node.all_cons_iff.1 h
    exact ⟨Node.each_leaf (hflag hn.self), hns⟩
  · exact Node.all_cons_iff.1 h

/-- **A derivation is laid out alike by a printer that is told the modes of its log.** -/
theorem Logs.agrees {j : Judgement} (h : Logs r j log) (hmodes : ∀ p m, (p, m) ∈ log → modes p = m) :
    j.Agrees r measure modes := by
  induction h with
  | stop token closed => exact fun _ => Print.contentAgrees_nil
  | next token pass more head rest ihHead ihRest =>
    intro hall
    obtain ⟨hn, hns⟩ := all_of_all_link (fun h => h) hall
    have hself := hmodes _ _ List.mem_cons_self
    have hhead := ihHead (fun p m hmem => hmodes p m (List.mem_cons_of_mem _ (List.mem_append_left _ hmem))) hself hn
    have hrest := ihRest (fun p m hmem => hmodes p m (List.mem_cons_of_mem _ (List.mem_append_right _ hmem))) hns
    show ContentAgrees measure modes _ (Node.annotateAll r (link _ _))
    unfold link
    split
    · exact .cons (Print.nodeAgrees_leaf _ _ _) hrest
    · exact .cons hhead hrest
  | atom whole bare => exact fun _ _ => Print.nodeAgrees_of_parts (Node.parts_annotate bare)
  | script token kind sign taken ih =>
    intro hself hall
    exact Print.nodeAgrees_command (ih hmodes (Node.each_branch_iff.1 hall).2.1)
  | group token kind content closed ih => exact fun _ _ => Print.nodeAgrees_group
  | formula token kind content closed ih =>
    intro hself hall
    have hcontent := ih hmodes (Node.each_branch_iff.1 hall).2.2
    obtain ⟨opening, closing, rfl | rfl⟩ := shape_of_formula? kind
    · exact Print.nodeAgrees_displayMath hcontent (content.mode_of_head hmodes)
    · exact Print.nodeAgrees_inlineMath hcontent (content.mode_of_head hmodes)
  | dollar token kind content closed half ih =>
    intro hself hall
    exact Print.nodeAgrees_inlineMath (ih hmodes (Node.each_branch_iff.1 hall).2.2) (content.mode_of_head hmodes)
  | @environment mode c _ _ name _ args _ body _ own others token kind opening nodes taken content closed closing ihArgs
      ihBody =>
    intro hself hall
    obtain ⟨hargued, hargs, hbody⟩ := Node.each_branch_iff.1 hall
    have hown : ∀ p m, (p, m) ∈ own → modes p = m := fun p m hmem => hmodes p m (List.mem_append_left _ hmem)
    have hothers : ∀ p m, (p, m) ∈ others → modes p = m := fun p m hmem => hmodes p m (List.mem_append_right _ hmem)
    have htaken := ihArgs hown hargs
    have hcontent := ihBody hothers hbody
    have hmode := content.mode_of_head hothers
    unfold environmentShape at hargued ⊢
    cases hmath : (environmentEntry r name).spec.math with
    | false =>
      rw [hmath] at hcontent hmode
      exact Print.nodeAgrees_environment htaken hcontent hmode
    | true =>
      rw [hmath] at hcontent hmode hargued
      refine Print.nodeAgrees_mathEnvironment ?_ hcontent hmode
      cases args with
      | nil => exact Print.argumentsAgree_nil
      | cons arg args =>
        -- arguments that are read in a formula are printed in one
        have hformula : mode = .math := hself.symm.trans (hargued rfl)
        exact hformula ▸ htaken
  | verbatim token kind opening raw taken content ih =>
    intro hself hall
    exact Print.nodeAgrees_verbatim (ih hmodes (Node.each_branch_iff.1 hall).2.1)
  | command token kind known free taken ih =>
    intro hself hall
    refine Print.nodeAgrees_command ?_
    rw [Print.argumentMode_hints]
    exact ih hmodes (Node.each_branch_iff.1 hall).2.1
  | done => exact fun _ => Print.argumentsAgree_nil
  | absent missing others ih => exact ih hmodes
  | star sign others ih =>
    intro hall
    refine .cons (.cons (Print.nodeAgrees_leaf _ _ _) Print.contentAgrees_nil) ?_
      (ih (fun p m hmem => hmodes p m (List.mem_cons_of_mem _ hmem)) (Node.all_cons_iff.1 hall).2)
    rintro n ⟨⟩
    exact hmodes _ _ List.mem_cons_self
  | optional sign content closed others ihContent ihOthers =>
    intro hall
    exact argumentsAgree_of_body content hmodes ihContent ihOthers hall
  | braced sign content closed others ihContent ihOthers =>
    intro hall
    exact argumentsAgree_of_body content hmodes ihContent ihOthers hall
  | bare whole start past bare others ih =>
    intro hall
    refine .cons (.cons (Print.nodeAgrees_of_parts (Node.parts_annotate bare)) Print.contentAgrees_nil) ?_
      (ih (fun p m hmem => hmodes p m (List.mem_cons_of_mem _ hmem)) (Node.all_cons_iff.1 hall).2)
    rintro n ⟨⟩
    rw [Node.span_annotate, start]
    exact hmodes _ _ List.mem_cons_self

end Parse

/-- **A document is printed in the modes in which it was read.** It is read in some modes, and for all modes in which
    it can be read, its layout is the one that puts each sequence into the mode in which that sequence was read, so
    that formulas are broken only between nodes that were read in a formula. Math environments that stand in text
    must not have arguments. -/
theorem Print.doc_eq_docBy {r : Registry} {src : Bytes} {tree : Node} (h : Parse.document r src = .ok tree) :
    (∃ modes, Parse.ReadIn r modes src tree) ∧
    ∀ modes, Parse.ReadIn r modes src tree → Node.Each (Node.ArguedInFormula modes) tree →
      ∀ measure, Print.doc measure (tree.annotate r) = Print.docBy measure modes (tree.annotate r) := by
  refine ⟨Parse.exists_readIn h, ?_⟩
  rintro modes ⟨body, log, hlog, rfl, hmodes⟩ hargued measure
  have hcontent : ContentAgrees measure modes .text (Node.annotateAll r body.nodes) :=
    hlog.agrees hmodes (Node.each_branch_iff.1 hargued).2.2
  have hmode := hlog.mode_of_head hmodes
  rw [doc, Node.annotate, nodeDoc, docBy, hcontent.flow_eq hmode]

/-- Text in a formula, and a formula in that text. -/
theorem Print.doc_eq_docBy_nested :
    ∃ src tree modes, src = bytes "\\begin\x7bequation\x7da[\\text\x7bb $c^d$[\x7d]_\\alpha\\end\x7bequation\x7d" ∧
      Parse.document .builtin src = .ok tree ∧ Parse.ReadIn .builtin modes src tree ∧
      ∀ measure, Print.doc measure (tree.annotate .builtin) = Print.docBy measure modes (tree.annotate .builtin) := by
  obtain ⟨tree, htree⟩ := Parse.exists_ok_of_isOk (x := Parse.document .builtin
    (bytes "\\begin\x7bequation\x7da[\\text\x7bb $c^d$[\x7d]_\\alpha\\end\x7bequation\x7d")) (by decide +kernel)
  have hbare : tree.preorder.all (!·.isArguedFormula) = true := by
    have hall : ((Parse.document .builtin (bytes
        "\\begin\x7bequation\x7da[\\text\x7bb $c^d$[\x7d]_\\alpha\\end\x7bequation\x7d")).toOption.all
          fun tree => tree.preorder.all (!·.isArguedFormula)) = true := by
      decide +kernel
    rw [htree] at hall
    exact hall
  obtain ⟨⟨modes, hmodes⟩, hdoc⟩ := Print.doc_eq_docBy htree
  refine ⟨_, tree, modes, rfl, htree, hmodes, hdoc modes hmodes fun n hn hargued => ?_⟩
  have hnone := List.all_eq_true.1 hbare n hn
  rw [hargued] at hnone
  cases hnone

end TexTidy
