import TexTidy.Proofs.CommentLine
import TexTidy.Proofs.EmptyFormula
import TexTidy.Proofs.Reread
import TexTidy.Proofs.Shapes
import TexTidy.Proofs.TableLines

/-!
# TexTidy.Proofs.Faithful

The layout of a parsed tree is a spelling of the tree, as long as the tree is steady (`Derives.flows`). The
proof goes along the derivation of the tree, with one case for each rule. An environment is laid out as a block
or as a table.
-/

namespace TexTidy

open Bytes (ink)
open Text (Tight Even tight_append even_append)
open Layout (Writes writes_append Doc Atom)
open Node (All Each NodesFlow ArgsFlow SteadyAll annotateAll)
open Print (flow nodeDoc nodeDocs isTable)

section

variable {r : Registry} {keep : Bool} {span : Span} {hints : Hints} {args content : List Node}

/-! ## environments -/

/-- The layout of an environment. -/
theorem writes_environment {shape : Shape} {name s t : Bytes} {measure : Bytes → Nat} {mode : Mode}
    (hshape : shape = .environment name ∨ shape = .mathEnvironment name)
    (h : Writes (nodeDoc measure mode (.branch span hints shape args content)).atoms s t) :
    ∃ mode', Writes (if isTable hints content then
        Doc.concat [.concat [.text (Cursor.beginMarker name), .concat (nodeDocs measure mode' args)],
          Print.tableDoc measure args content, .hardLine, .text (Cursor.endMarker name)]
      else Print.block (.concat [.text (Cursor.beginMarker name), .concat (nodeDocs measure mode' args)])
        (.text (Cursor.endMarker name)) content
        (Print.paragraph (flow measure mode' false true false none content))).atoms s t := by
  rcases hshape with rfl | rfl
  · rw [nodeDoc] at h
    exact ⟨mode, h⟩
  · rw [nodeDoc] at h
    exact ⟨.math, h⟩

theorem laid_environment {shape : Shape} {name : Bytes}
    (hshape : shape = .environment name ∨ shape = .mathEnvironment name) (hname : Byte.newline ∉ name)
    (hargs : ArgsFlow r keep args) (hcontent : NodesFlow r keep content)
    (hquotable : ∀ n ∈ content, n.Quotable r keep)
    (hfilled : All (fun n => n.isFilled = true) content → All (fun n => n.isEmptyFormula = false) content) :
    (Node.branch span hints shape args content).Laid r keep := by
  have hopening := sign_beginMarker hname
  have hclosing := sign_endMarker hname
  have hmarkers : shape.isContainer = true ∧ shape ≠ .group ∧ shape.opening = Cursor.beginMarker name ∧
      shape.closing = Cursor.endMarker name ∧ (Node.branch span hints shape args content).quoted =
        if isTable hints content then content else [] := by
    rcases hshape with rfl | rfl
    · exact ⟨rfl, by simp, rfl, rfl, rfl⟩
    · exact ⟨rfl, by simp, rfl, rfl, rfl⟩
  obtain ⟨hkind, hgroup, hopen, hclose, hquoted⟩ := hmarkers
  intro measure mode s t hsteady _ hwrites
  obtain ⟨mode', hwrites⟩ := writes_environment hshape hwrites
  -- the arguments are laid out behind the opening
  have htaken {s₁ : Bytes} (h : Writes (Doc.concat [.text (Cursor.beginMarker name),
      .concat (nodeDocs measure mode' args)]).atoms s s₁) :
      ∃ u, s₁ = s ++ Cursor.beginMarker name ++ u ∧ Spells r keep (.args args) u ∧ Tight s₁ ∧ Even s₁ := by
    simp only [Doc.atoms, Doc.atomsAll, List.append_nil, List.singleton_append] at h
    obtain ⟨u, rfl, -, hu, htight, heven⟩ := hargs.1 (hsteady.steadyAll_args hgroup) (hopening.tight s)
      (fun _ => hopening.even s) h
    exact ⟨u, rfl, hu, htight, heven fun _ => hopening.even s⟩
  obtain ⟨u, y, hu, hy, ht⟩ : ∃ u y, Spells r keep (.args args) u ∧
      Spells r keep (.nodes (shape.before r args) content) y ∧
      t = s ++ Cursor.beginMarker name ++ u ++ y ++ Cursor.endMarker name := by
    split at hwrites
    · next htable =>
      have hwrites : Writes ((Doc.concat [.text (Cursor.beginMarker name),
          .concat (nodeDocs measure mode' args)]).atoms ++ ((Print.tableDoc measure args content).atoms ++
            .hardLine :: [.text (Cursor.endMarker name)])) s t := by
        simpa [Doc.atoms, Doc.atomsAll] using hwrites
      obtain ⟨s₁, hopen, hwrites⟩ := writes_append.1 hwrites
      obtain ⟨u, rfl, hu, htight, heven⟩ := htaken hopen
      have hsettled := hsteady.settled
      rw [Node.isSettled_branch hgroup, htable, if_pos rfl, Bool.and_eq_true] at hsettled
      have hempty := hsteady.filled.self
      rw [hquoted, if_pos htable] at hempty
      have hcalm : All (Node.Calm r keep false) content := fun m hm =>
        ⟨fun h => (by cases h), (Node.each_branch_iff.1 hsteady.unglued).2.2 m hm, hfilled hempty m hm⟩
      have hready : ∀ n ∈ content, n.Ready r keep := fun n hn => ⟨hquotable n hn, hcalm.of_mem hn⟩
      obtain ⟨y, hend, hy⟩ := spells_tableDoc (Bool.and_eq_true_iff.1 htable).2 htight heven
        (hsteady.apart hgroup) (by simpa using hsettled.2) hsteady.glue hready hwrites
      exact ⟨u, y, hu, hy, hend⟩
    · next htable =>
      obtain ⟨s₁, t₁, hopen, hclose, hbody⟩ := spells_block hcontent
        (hsteady.steadyAll_content hgroup (Bool.eq_false_iff.2 htable)) hsteady.glue (hsteady.apart hgroup)
        hwrites
      obtain ⟨u, rfl, hu, htight, heven⟩ := htaken hopen
      obtain ⟨y, rfl, hy⟩ := hbody htight heven
      exact ⟨u, y, hu, hy, hclose⟩
  refine spells_container shape hkind (hclose ▸ hclosing) hu hy (fun h => ?_)
    (by rw [hopen, hclose]; exact ht)
  rw [hopen] at h
  cases h

end

/-! ## sequences -/

namespace Parse

variable {r : Registry} {keep : Bool} {mode : Mode} {closer : Closer} {c d : Cursor} {n : Node}
  {tail : Sequence}

/-- A comment that was read, with what is known of the nodes behind it. -/
theorem Derives.remarks {comment : Comment} (head : Derives r (.item mode c n d))
    (rest : Derives r (.sequence mode closer d tail)) (hn : n.comment? = some comment) :
    ∃ span before, annotateAll r (link n tail.nodes) =
        .leaf span {} (.comment comment before) :: annotateAll r tail.nodes ∧
      Node.Remarks (annotateAll r tail.nodes) comment before := by
  obtain ⟨span, hints, before, rfl⟩ := Node.exists_of_comment? hn
  obtain ⟨rfl, hshaped⟩ := head.comment_item
  have hfenced := rest.fenced.2
  refine ⟨span, _, rfl, hshaped.line, ?_, ?_⟩
  · cases tail.nodes with
    | nil => exact fun h => by cases h
    | cons m ms => simp [annotateAll]
  · generalize tail.nodes = nodes at hfenced
    cases nodes with
    | nil => rfl
    | cons m ms =>
      have hm := (Node.all_cons_iff.1 hfenced).1.self
      cases m with
      | leaf span hints l => cases l <;> first | rfl | cases hm
      | branch => rfl

/-- Every node of a sequence is quotable. -/
def Judgement.Quotes (r : Registry) (keep : Bool) : Judgement → Prop
  | .sequence _ _ _ body => ∀ n ∈ annotateAll r body.nodes, n.Quotable r keep
  | _ => True

theorem Derives.quotes {j : Judgement} (h : Derives r j) : j.Quotes r keep := by
  induction h with
  | stop token closed => exact fun n hn => by cases hn
  | @next _ _ _ _ _ _ n _ tail token pass more head rest ihHead ihRest =>
    intro m hm
    cases hcomment : n.comment? with
    | none =>
      rw [link_of_code hcomment, annotateAll, List.mem_cons] at hm
      rcases hm with rfl | hm
      · refine ⟨fun hsolid hcode => head.reflows (by simpa using hsolid) hcomment, fun _ => ?_, ?_⟩
        · simpa using head.raw_ne_nil
        · simp [hcomment]
      · exact ihRest m hm
    | some comment =>
      obtain ⟨span, before, hlink, hremarks⟩ := head.remarks rest hcomment
      rw [hlink, List.mem_cons] at hm
      rcases hm with rfl | hm
      · refine ⟨fun _ h => (by cases h), fun _ => ?_, ?_⟩
        · simp [Node.raw_leaf, Leaf.raw, Leaf.rawPieces]
        · rintro _ ⟨⟩
          exact hremarks.line
      · exact ihRest m hm
  | leaf | script | group | formula | dollar | emptyDollars | environment | verbatim | verb | command
  | done | absent | star | optional | braced | bareCommand | bareCharacter => trivial

/-! ## the rules -/

/-- What is laid out is a spelling of what was read. -/
def Judgement.Flows (r : Registry) (keep : Bool) : Judgement → Prop
  | .item _ _ n _ => n.isSpace = false → n.comment? = none → (n.annotate r).Flows r keep
  | .arguments _ _ _ args _ => ArgsFlow r keep (annotateAll r args)
  | .sequence _ _ _ body => NodesFlow r keep (annotateAll r body.nodes)

theorem flows_next {closer' : Closer} (head : Derives r (.item mode c n d))
    (rest : Derives r (.sequence mode closer d tail)) (ihHead : (Judgement.item mode c n d).Flows r keep)
    (ihRest : (Judgement.sequence mode closer d tail).Flows r keep) :
    (Judgement.sequence mode closer' c { tail with nodes := link n tail.nodes }).Flows r keep := by
  change NodesFlow r keep (annotateAll r (link n tail.nodes))
  cases hcomment : n.comment? with
  | none =>
    rw [link_of_code hcomment, annotateAll]
    cases hspace : n.isSpace with
    | true => exact nodesFlow_space (by simpa using hspace) ihRest
    | false =>
      exact nodesFlow_code (by simpa using hspace) (by simpa using hcomment) (ihHead hspace hcomment) ihRest
  | some comment =>
    obtain ⟨span, before, hlink, hremarks⟩ := head.remarks rest hcomment
    rw [hlink]
    exact nodesFlow_comment rfl hremarks ihRest

/-- A formula with an opening and a closing of its own. -/
theorem flows_formula {k : Token.Kind} {shape : Shape} {span : Span} {content : List Node}
    (h : formula? k = some (closer, shape)) (hcontent : NodesFlow r keep content) :
    (Node.branch span (r.hints shape) shape [] content).Flows r keep := by
  obtain ⟨-, -, -, hopening, hclosing, hne⟩ := sign_formula h
  rcases formula?_cases h with ⟨-, -, rfl⟩ | ⟨-, -, rfl⟩ | ⟨-, -, rfl⟩
  · exact (laid_displayMath hopening hclosing hne hcontent).flows rfl
  · exact (laid_inlineMath hopening hclosing (fun h => absurd h hne) hcontent).flows rfl
  · exact (laid_displayMath hopening hclosing hne hcontent).flows rfl

/-- **The layout of a parsed tree is a spelling of the tree.** -/
theorem Derives.flows {j : Judgement} (h : Derives r j) : j.Flows r keep := by
  have hbrace : Sign [Byte.openBrace] ∧ Sign [Byte.closeBrace] :=
    ⟨sign_byte (by decide) (by decide), sign_byte (by decide) (by decide)⟩
  have hbracket : Sign [Byte.openBracket] ∧ Sign [Byte.closeBracket] :=
    ⟨sign_byte (by decide) (by decide), sign_byte (by decide) (by decide)⟩
  have hdollar : Sign [Byte.dollar] := sign_byte (by decide) (by decide)
  induction h with
  | stop token closed => exact nodesFlow_nil
  | next token pass more head rest ihHead ihRest => exact flows_next head rest ihHead ihRest
  | @leaf _ _ _ _ l token plain =>
    intro hsolid hcode
    obtain ⟨content, rfl⟩ := text_of_plainLeaf? plain hsolid hcode
    exact (laid_text (plain_of_leaf token plain)).flows rfl
  | script token kind sign taken ih => exact fun _ _ => flows_script sign ih
  | group token kind content closed ih =>
    exact fun _ _ => (laid_group ((Derives.group token kind content closed).reflows rfl rfl)
      (content.all_nonempty closed trivial)).flows rfl
  | formula token kind content closed ih => exact fun _ _ => flows_formula kind ih
  | dollar token kind content closed half ih =>
    exact fun _ _ => (laid_inlineMath hdollar hdollar (fun _ => rfl) ih).flows rfl
  | emptyDollars token kind =>
    exact fun _ _ => (laid_inlineMath hdollar hdollar (fun _ => rfl) nodesFlow_nil).flows rfl
  | environment token kind opening nodes taken content closed closing ihArgs ihBody =>
    intro _ _
    have hname := Cursor.newline_not_mem_environmentName opening
    have hquotes : ∀ m ∈ annotateAll r _, m.Quotable r keep := content.quotes
    have hfilled := content.all_nonempty closed trivial
    unfold environmentShape
    split
    · exact (laid_environment (.inr rfl) hname ihArgs ihBody hquotes hfilled).flows rfl
    · exact (laid_environment (.inl rfl) hname ihArgs ihBody hquotes hfilled).flows rfl
  | verbatim token kind opening raw taken content ih =>
    exact fun _ _ => (laid_verbatim (Cursor.newline_not_mem_environmentName opening) ih).flows rfl
  | verb token kind known free starred star_eq content =>
    exact fun _ _ => (laid_verb (Cursor.last_delimited content)).flows rfl
  | command token kind known free taken ih =>
    exact fun _ _ => flows_named (named_of_token token kind) ih
  | done => exact argsFlow_nil
  | absent missing others ih => exact ih
  | star sign others ih =>
    exact argsFlow_cons
      (argFlows_bare ((laid_text (.singleton (by decide) (by decide))).flows rfl) rfl rfl rfl) ih
  | optional sign content closed others ihBody ih =>
    exact argsFlow_cons (argFlows_delimited hbracket.1 hbracket.2 ihBody) ih
  | braced sign content closed others ihBody ih =>
    exact argsFlow_cons (argFlows_delimited hbrace.1 hbrace.2 ihBody) ih
  | bareCommand token kind known free others ih =>
    exact argsFlow_cons (argFlows_bare (flows_named (named_of_token token kind) argsFlow_nil) rfl rfl rfl) ih
  | bareCharacter sign inert content others ih =>
    exact argsFlow_cons
      (argFlows_bare ((laid_text (plain_of_character sign inert content)).flows rfl) rfl rfl rfl) ih

end Parse

end TexTidy
