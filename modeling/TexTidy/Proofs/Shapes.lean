import TexTidy.Proofs.Flowing

/-!
# TexTidy.Proofs.Shapes

The layout of each shape of a node is a spelling of it: leaves and commands, arguments, blocks, formulas and
what is printed from its raw text. Only tables are left out here.
-/

namespace TexTidy

open Bytes (ink)
open Text (Tight Even tight_append even_append)
open Layout (broken broken_tight Writes writes_append Doc Atom)
open Node (All Each leader hasGlue beginsApart areSettled NodesFlow ArgsFlow SteadyAll)
open Print (Step Separator emit flow inlineSteps argumentSteps delimitedSteps nodeDoc nodeDocs nodeSteps
  isInline isTable gapAtoms widen rankOf Widened widened_of_writes rankOf_widen endsInComment present)

/-! ## parts of a steady node -/

namespace Node

variable {r : Registry} {keep : Bool} {span : Span} {hints : Hints} {shape : Shape} {args content : List Node}

theorem isSettled_branch (h : shape ≠ .group) : isSettled r (.branch span hints shape args content) =
    (areSettled r args && !((shape.before r args).hungry && beginsApart content) &&
      if isTable hints content then !hasApart r content else areSettled r content) := by
  cases shape with
  | group => exact absurd rfl h
  | _ => rfl

namespace Steady

theorem steadyAll_args (h : Steady r keep (.branch span hints shape args content)) (hgroup : shape ≠ .group) :
    SteadyAll r keep args := by
  have hsettled := h.settled
  rw [isSettled_branch hgroup, Bool.and_eq_true, Bool.and_eq_true] at hsettled
  exact ⟨hsettled.1.1, (each_branch_iff.1 h.loose).2.1, (each_branch_iff.1 h.unglued).2.1,
    (each_branch_iff.1 h.filled).2.1⟩

theorem steadyAll_content (h : Steady r keep (.branch span hints shape args content))
    (hgroup : shape ≠ .group) (htable : isTable hints content = false) : SteadyAll r keep content := by
  have hsettled := h.settled
  rw [isSettled_branch hgroup, htable, if_neg (by simp), Bool.and_eq_true] at hsettled
  exact ⟨hsettled.2, (each_branch_iff.1 h.loose).2.2, (each_branch_iff.1 h.unglued).2.2,
    (each_branch_iff.1 h.filled).2.2⟩

theorem apart (h : Steady r keep (.branch span hints shape args content)) (hgroup : shape ≠ .group)
    (hhungry : (shape.before r args).hungry = true) : beginsApart content = false := by
  have hsettled := h.settled
  rw [isSettled_branch hgroup, hhungry, Bool.true_and, Bool.and_eq_true, Bool.and_eq_true] at hsettled
  simpa using hsettled.1.2

theorem glue (h : Steady r keep (.branch span hints shape args content)) : hasGlue content = false := by
  simpa [isUnglued] using h.unglued.self

end Steady

/-- What the layout of a node writes is a spelling of it. -/
def Laid (r : Registry) (keep : Bool) (n : Node) : Prop :=
  ∀ ⦃measure mode s t⦄, n.Steady r keep → (n.isControl = true → Even s) →
    Writes (nodeDoc measure mode n).atoms s t →
    ∃ u, t = s ++ u ∧ Stemmed u ∧ Spells r keep (.node n) u ∧ Tight (s ++ u) ∧ n.Balances s (s ++ u)

/-- What does not flow with the paragraph around it is laid out by itself. -/
theorem Laid.flows {n : Node} (h : n.Laid r keep) (hn : n.command? = none) : n.Flows r keep := by
  intro measure mode ss s t hsteady hcontrol hwrites
  have hown : Print.ownSteps measure mode n = [.content (nodeDoc measure mode n)] := by
    rw [Print.ownSteps, isInline, hn]
    rfl
  rw [hown, List.singleton_append, emit, writes_append] at hwrites
  obtain ⟨t₁, hdoc, hwrites⟩ := hwrites
  obtain ⟨u, rfl, hu⟩ := h hsteady hcontrol hdoc
  exact ⟨u, hwrites, hu⟩

end Node

/-! ## leaves and commands -/

section

variable {r : Registry} {keep : Bool} {span : Span} {hints : Hints} {args content : List Node} {s t : Bytes}
  {measure : Bytes → Nat} {mode : Mode} {ss : List Step}

theorem laid_text {x : Bytes} (hx : Plain x) : (Node.leaf span hints (.text x)).Laid r keep := by
  intro measure mode s t _ _ hwrites
  cases hwrites
  have hsign := Sign.of_plain hx
  exact ⟨x, rfl, hsign.stemmed, .text, hsign.tight s, fun _ _ => hsign.even s⟩

theorem laid_verb {name marker x : Bytes} (hlast : ∃ b, marker.getLast? = some b ∧ isBlank b = false) :
    (Node.leaf span hints (.verb Parse.escape name marker x)).Laid r keep := by
  intro measure mode s t _ _ hwrites
  cases hwrites
  obtain ⟨b, hb, hblank⟩ := hlast
  have hend : (Parse.escape ++ name ++ marker ++ x ++ marker).getLast? = some b := by
    rw [List.getLast?_append, hb]
    rfl
  refine ⟨_, rfl, stemmed_of_getLast? hend ?_, .verb, tight_append hend (isPad_eq_false hblank),
    fun hback _ => even_append hend ?_⟩
  · rintro rfl
    cases hblank
  · simpa [Node.endsInBackslash, hb] using hback

/-- A command is spelled by its name and its arguments, whether they flow or not. -/
theorem flows_command {escape name : Bytes} (hstem : Stemmed (escape ++ name)) (hargs : ArgsFlow r keep args)
    (hname : ∀ s, ((Node.branch span hints (.command escape name) args []).isControl = true → Even s) →
      Tight (s ++ (escape ++ name)) ∧ (Node.leadsToControl args = true → Even (s ++ (escape ++ name))) ∧
        (((Node.branch span hints (.command escape name) args []).isBackslashes = true → Even s) →
          args.all Node.isBackslashes = true → Even (s ++ (escape ++ name)))) :
    (Node.branch span hints (.command escape name) args []).Flows r keep := by
  intro measure mode ss s t hsteady hcontrol hwrites
  obtain ⟨htight, heven, hlast⟩ := hname s hcontrol
  have hsteady := hsteady.steadyAll_args (by simp)
  obtain ⟨u, hwrites, hu, hspells, htight, hend⟩ : ∃ u, Writes (emit true none ss)
      (s ++ (escape ++ name) ++ u) t ∧ (u = [] ∨ Stemmed u) ∧ Spells r keep (.args args) u ∧
        Tight (s ++ (escape ++ name) ++ u) ∧
        ((args.all Node.isBackslashes = true → Even (s ++ (escape ++ name))) → Even (s ++ (escape ++ name) ++ u)) := by
    unfold Print.ownSteps at hwrites
    split at hwrites
    · exact hargs.2 hsteady htight heven hwrites
    · rw [List.singleton_append, emit, writes_append] at hwrites
      obtain ⟨t₁, hdoc, hwrites⟩ := hwrites
      have hdoc : Writes (Doc.atomsAll (nodeDocs measure (Print.argumentMode hints mode) args))
          (s ++ (escape ++ name)) t₁ := by
        rw [nodeDoc] at hdoc
        split at hdoc <;> simpa [gapAtoms, Doc.atoms, Doc.atomsAll, Writes] using hdoc
      obtain ⟨u, rfl, hu⟩ := hargs.1 hsteady htight heven hdoc
      exact ⟨u, hwrites, hu⟩
  refine ⟨escape ++ name ++ u, by simpa using hwrites, ?_, .command hspells, by simpa using htight,
    fun _ hs => by simpa using hend (hlast hs)⟩
  rcases hu with rfl | hu
  · rwa [List.append_nil]
  · exact hu.append _

theorem flows_script {char : UInt8} (hchar : char = Byte.caret ∨ char = Byte.underscore)
    (hargs : ArgsFlow r keep args) :
    (Node.branch span hints (.command [] [char]) args []).Flows r keep := by
  have hsign : Sign [char] := .of_plain (.singleton (by rcases hchar with rfl | rfl <;> rfl)
    (by rcases hchar with rfl | rfl <;> decide))
  exact flows_command hsign.stemmed hargs fun s _ => ⟨hsign.tight s, fun _ => hsign.even s, fun _ _ => hsign.even s⟩

theorem Named.stemmed {name : Bytes} (h : Named name) : Stemmed (Parse.escape ++ name) := by
  rcases h with ⟨b, rfl⟩ | h
  · exact ⟨Parse.escape, b, rfl, fun _ => rfl⟩
  · exact (Sign.of_plain h).stemmed.append _

theorem flows_named {name : Bytes} (hname : Named name) (hargs : ArgsFlow r keep args) :
    (Node.branch span hints (.command Parse.escape name) args []).Flows r keep :=
  flows_command hname.stemmed hargs fun _ hcontrol => hname.balances hcontrol

/-! ## content between an opening and a closing -/

/-- The state of a paragraph at its start. -/
theorem poised_start {begun trim : Bool} {b : Before} {w : Bytes} {ns : List Node}
    (hstart : trim = true → begun = false) (htight : Tight s) (heven : Even s) (hw : ink w = [])
    (hfresh : (leader ns).any (·.comment?.isNone) = true → w ≠ [] ∨ b.sticky = false)
    (hapart : trim = true → b.hungry = true → beginsApart ns = false) :
    Poised begun none false trim false b [] s w ns :=
  ⟨htight, hw, by simp, fun _ => hfresh, fun _ _ _ h => absurd rfl h, fun _ _ _ _ _ h => by simp at h,
    fun ht _ => hapart ht, fun ht _ => hstart ht, fun _ _ => heven, fun h => (by cases h)⟩

/-- What was written for the content of a node: `x`, then the white space `w` that is not the last. -/
structure Enclosed (r : Registry) (keep : Bool) (b : Before) (content : List Node) (s x w : Bytes) :
    Prop where
  tight : Tight (s ++ x)
  white : ink w = []
  bare : endsInComment content = true → w = [] ∧ x.getLast? ≠ some Byte.newline
  solid : content.all Node.isSpace = false → Stemmed x
  idle : content.all Node.isSpace = true → x = []
  spells : ∀ z, ink z = [] → (endsInComment content = true → LineTail z) →
    Spells r keep (.nodes b content) (x ++ z)

theorem Node.NodesFlow.enclosed {begun trim preamble : Bool} {b : Before} {w : Bytes}
    (hcontent : NodesFlow r keep content) (hsteady : SteadyAll r keep content)
    (hglue : hasGlue content = false)
    (h : Poised begun none false trim false b [] s w content)
    (hwrites : Writes (emit begun none (flow measure mode preamble trim false none content ++ ss))
      (s ++ w) t) :
    ∃ begun' gap x w', Writes (emit begun' gap ss) (s ++ x ++ w') t ∧ Enclosed r keep b content s x w' := by
  obtain ⟨begun', gap, v, u, w', hrest, hflowed⟩ := hcontent hsteady hglue h hwrites
  refine ⟨begun', gap, v ++ u, w', by simpa using hrest, by simpa using hflowed.tight, hflowed.rest,
    fun hend => ?_, fun hall => (hflowed.solid hall).append v, fun hall => ?_, fun z hz hend => ?_⟩
  · have hall : content.all Node.isSpace = false := by
      refine Bool.eq_false_iff.2 fun hall => ?_
      rw [Print.endsInComment_all hall] at hend
      cases hend
    exact ⟨(hflowed.bare hend).1, getLast?_append_ne (hflowed.solid hall).ne_nil (hflowed.bare hend).2⟩
  · obtain ⟨rfl, rfl, -⟩ := hflowed.idle hall
    rfl
  · exact hflowed.spells v z hflowed.white (.inl rfl) hz hend

/-- A line break behind content ends the line of a comment. -/
theorem Enclosed.hardLine {b : Before} {gap : Option Separator} {x w : Bytes} {as : List Atom}
    (h : Enclosed r keep b content s x w)
    (hwrites : Writes (gapAtoms gap ++ Atom.hardLine :: as) (s ++ x ++ w) t) :
    ∃ y, Writes as (s ++ y) t ∧ Spells r keep (.nodes b content) y ∧ y ≠ [] := by
  obtain ⟨t₁, hgap, indent, hwrites⟩ := writes_append.1 hwrites
  obtain ⟨z, rfl, hz⟩ := widened_of_writes hgap h.tight h.white
  obtain ⟨z', hbroken, hz', hcount, hline⟩ := Layout.broken_white h.tight hz.white indent
  rw [hbroken, List.append_assoc] at hwrites
  refine ⟨x ++ z', hwrites, h.spells z' hz' fun hend => hline (hz.soft ?_), fun hnil => ?_⟩
  · rw [(h.bare hend).1]
    exact softTail_nil
  · exact Print.ne_nil_of_count hcount (List.append_eq_nil_iff.1 hnil).2

/-- The end of content in front of something else. -/
theorem Enclosed.separated {b : Before} {gap : Option Separator} {x w : Bytes} {as : List Atom}
    (h : Enclosed r keep b content s x w) (hgap : endsInComment content = true → 3 ≤ rankOf gap)
    (hwrites : Writes (gapAtoms gap ++ as) (s ++ x ++ w) t) :
    ∃ z, Writes as (s ++ (x ++ z)) t ∧ Spells r keep (.nodes b content) (x ++ z) := by
  obtain ⟨t₁, hwhite, hwrites⟩ := writes_append.1 hwrites
  obtain ⟨z, rfl, hz⟩ := widened_of_writes hwhite h.tight h.white
  rw [List.append_assoc] at hwrites
  refine ⟨z, hwrites, h.spells z hz.white fun hend => hz.line (hgap hend) ?_⟩
  rw [(h.bare hend).1]
  exact softTail_nil

/-- Content between delimiters that is laid out by itself. -/
theorem spells_delimited {opening closing : Bytes} (hopening : Sign opening)
    (hcontent : NodesFlow r keep content) (hsteady : SteadyAll r keep content)
    (hglue : hasGlue content = false)
    (hwrites : Writes (Print.delimited opening closing content
      (Print.paragraph (flow measure mode false false false none content))).atoms s t) :
    ∃ y, t = s ++ opening ++ y ++ closing ∧ Spells r keep (.nodes {} content) y ∧
      (content.all Node.isSpace = false → y ≠ []) := by
  have hstart : Poised false none false false false {} [] (s ++ opening) [] content :=
    poised_start (fun h => by cases h) (hopening.tight s) (hopening.even s) rfl (fun _ => .inr rfl)
      fun h => by cases h
  have hbody (as : List Atom) (h : Writes (emit false none
      (flow measure mode false false false none content) ++ as) (s ++ opening) t) :
      ∃ gap x w, Writes (gapAtoms gap ++ as) (s ++ opening ++ x ++ w) t ∧
        Enclosed r keep {} content (s ++ opening) x w := by
    obtain ⟨t₁, hflow, has⟩ := writes_append.1 h
    rw [← List.append_nil (s ++ opening), ← List.append_nil (flow _ _ _ _ _ _ _)] at hflow
    obtain ⟨begun, gap, x, w, hrest, hx⟩ := hcontent.enclosed hsteady hglue hstart hflow
    exact ⟨gap, x, w, writes_append.2 ⟨t₁, hrest, has⟩, hx⟩
  unfold Print.delimited at hwrites
  split at hwrites
  · simp only [Doc.atoms, Doc.atomsAll, Print.atoms_paragraph, List.append_nil, List.append_assoc] at hwrites
    obtain ⟨gap, x, w, hrest, hx⟩ := hbody _ hwrites
    obtain ⟨y, hy, hspells, hne⟩ := hx.hardLine hrest
    exact ⟨y, hy, hspells, fun _ => hne⟩
  · next hend =>
    simp only [Doc.atoms, Doc.atomsAll, Print.atoms_paragraph, List.append_nil] at hwrites
    obtain ⟨gap, x, w, hrest, hx⟩ := hbody _ hwrites
    obtain ⟨z, hz, hspells⟩ := hx.separated (fun h => absurd h hend) hrest
    exact ⟨x ++ z, hz, hspells, fun hall hnil => (hx.solid hall).ne_nil (List.append_eq_nil_iff.1 hnil).1⟩

/-- What follows content that flows ends the line of a comment. -/
theorem writes_closing {begun remark : Bool} {gap : Option Separator} {closing : Bytes}
    (h : Writes (emit begun gap ((if remark then [Step.separator .forced] else []) ++
      (Step.content (.text closing) :: ss))) s t) :
    ∃ gap', Writes (gapAtoms gap' ++ (Atom.text closing :: emit true none ss)) s t ∧
      (remark = true → 3 ≤ rankOf gap') := by
  cases remark with
  | false => exact ⟨gap, by simpa [emit, Doc.atoms] using h, fun h => by cases h⟩
  | true =>
    refine ⟨widen gap .forced, by simpa [emit, Doc.atoms] using h, fun _ => ?_⟩
    rw [rankOf_widen]
    exact Nat.le_max_right _ _

/-- Content between delimiters that flows with the paragraph around it. -/
theorem spells_delimitedSteps {space opening closing : Bytes} {xs : List Node} (hopening : Sign opening)
    (hcontent : NodesFlow r keep content) (hsteady : SteadyAll r keep content)
    (hglue : hasGlue content = false)
    (hwrites : Writes (emit true none (delimitedSteps measure mode
      (.branch span hints (.argument space opening closing) xs content) ++ ss)) s t) :
    ∃ y, Writes (emit true none ss) (s ++ opening ++ y ++ closing) t ∧
      Spells r keep (.nodes {} content) y := by
  have hstart : Poised true none false false false {} [] (s ++ opening) [] content :=
    poised_start (fun h => by cases h) (hopening.tight s) (hopening.even s) rfl (fun _ => .inr rfl)
      fun h => by cases h
  rw [delimitedSteps, List.append_assoc, List.append_assoc, List.cons_append, List.singleton_append,
    emit] at hwrites
  change Writes (emit true none _) (s ++ opening) t at hwrites
  rw [← List.append_nil (s ++ opening)] at hwrites
  obtain ⟨begun, gap, x, w, hrest, hx⟩ := hcontent.enclosed hsteady hglue hstart hwrites
  obtain ⟨gap', hrest, hrank⟩ := writes_closing hrest
  obtain ⟨z, hz, hspells⟩ := hx.separated hrank hrest
  exact ⟨x ++ z, hz, hspells⟩

/-! ## arguments -/

/-- The text can stand for an argument in front of others. -/
def Node.Taken (r : Registry) (keep : Bool) (a : Node) (u : Bytes) : Prop :=
  ∀ ⦃as v⦄, Spells r keep (.args as) v → Spells r keep (.args (a :: as)) (u ++ v)

/-- What is written of an argument is a spelling of it, laid out by itself or between delimiters that flow. -/
def Node.ArgFlows (r : Registry) (keep : Bool) (a : Node) : Prop :=
  (∀ ⦃measure mode s t⦄, a.Steady r keep → Tight s → (a.isControl = true → Even s) →
    Writes (nodeDoc measure mode a).atoms s t →
    ∃ u, t = s ++ u ∧ Stemmed u ∧ a.Taken r keep u ∧ Tight (s ++ u) ∧
      ((a.isBackslashes = true → Even s) → Even (s ++ u))) ∧
  (∀ ⦃measure mode ss s t⦄, a.Steady r keep → Print.isDelimitedArgument a = true →
    Writes (emit true none (delimitedSteps measure mode a ++ ss)) s t →
    ∃ u, Writes (emit true none ss) (s ++ u) t ∧ Stemmed u ∧ a.Taken r keep u ∧ Tight (s ++ u) ∧
      Even (s ++ u))

theorem argsFlow_nil : ArgsFlow r keep [] := by
  constructor
  · intro measure mode s t _ htight _ hwrites
    cases hwrites
    exact ⟨[], by simp, .inl rfl, .noArgs, by simpa using htight, by simp⟩
  · intro measure mode ss s t _ htight _ hwrites
    rw [argumentSteps, List.nil_append] at hwrites
    exact ⟨[], by simpa using hwrites, .inl rfl, .noArgs, by simpa using htight, by simp⟩

theorem Stemmed.append_stems {u v : Bytes} (hu : Stemmed u) (hv : v = [] ∨ Stemmed v) : Stemmed (u ++ v) := by
  rcases hv with rfl | hv
  · rwa [List.append_nil]
  · exact hv.append u

theorem argsFlow_cons {a : Node} {as : List Node} (ha : a.ArgFlows r keep) (has : ArgsFlow r keep as) :
    ArgsFlow r keep (a :: as) := by
  constructor
  · intro measure mode s t hsteady htight heven hwrites
    obtain ⟨hsteady, hsteadys⟩ := Node.steadyAll_cons_iff.1 hsteady
    rw [nodeDocs, Doc.atomsAll, writes_append] at hwrites
    obtain ⟨t₁, hhead, hwrites⟩ := hwrites
    obtain ⟨u, rfl, hstem, hu, htight, hfirst⟩ := ha.1 hsteady htight
      (fun h => heven (Node.leadsToControl_cons.2 (.inl h))) hhead
    obtain ⟨v, rfl, hstems, hv, htight, hend⟩ := has.1 hsteadys htight (Node.even_of_leads hfirst heven) hwrites
    exact ⟨u ++ v, by simp, .inr (hstem.append_stems hstems), hu hv, by simpa using htight,
      fun hs => by simpa using hend (Node.even_of_all hfirst hs)⟩
  · intro measure mode ss s t hsteady htight heven hwrites
    obtain ⟨hsteady, hsteadys⟩ := Node.steadyAll_cons_iff.1 hsteady
    rw [argumentSteps, List.append_assoc] at hwrites
    obtain ⟨u, hwrites, hstem, hu, htight, hfirst⟩ : ∃ u, Writes (emit true none
        (argumentSteps measure mode as ++ ss)) (s ++ u) t ∧ Stemmed u ∧ a.Taken r keep u ∧ Tight (s ++ u) ∧
          ((a.isBackslashes = true → Even s) → Even (s ++ u)) := by
      split at hwrites
      · next hdelimited =>
        obtain ⟨u, hwrites, hstem, hu, htight, heven⟩ := ha.2 hsteady hdelimited hwrites
        exact ⟨u, hwrites, hstem, hu, htight, fun _ => heven⟩
      · rw [List.singleton_append, emit, writes_append] at hwrites
        obtain ⟨t₁, hdoc, hwrites⟩ := hwrites
        obtain ⟨u, rfl, hu⟩ := ha.1 hsteady htight (fun h => heven (Node.leadsToControl_cons.2 (.inl h))) hdoc
        exact ⟨u, hwrites, hu⟩
    obtain ⟨v, hwrites, hstems, hv, htight, hend⟩ := has.2 hsteadys htight (Node.even_of_leads hfirst heven) hwrites
    exact ⟨u ++ v, by simpa using hwrites, .inr (hstem.append_stems hstems), hu hv, by simpa using htight,
      fun hs => by simpa using hend (Node.even_of_all hfirst hs)⟩

/-- A star, a character or a command as an argument. -/
theorem argFlows_bare {space : Bytes} {n : Node} (hn : n.Flows r keep) (hsolid : n.isSpace = false)
    (hcode : n.comment? = none) (hback : n.endsInBackslash = false) :
    (Node.branch span {} (.argument space [] []) [] [n]).ArgFlows r keep := by
  refine ⟨fun measure mode s t hsteady htight heven hwrites => ?_,
    fun measure mode ss s t _ h => by cases h⟩
  obtain ⟨hsteady, -⟩ := Node.steadyAll_cons_iff.1 (hsteady.steadyAll_content (by simp) rfl)
  -- there is a space in front of the argument if there was one
  obtain ⟨w, hw, hshort, hnil, hwrites⟩ : ∃ w, ink w = [] ∧ w.count Byte.newline ≤ 1 ∧
      (w = [] ↔ space = []) ∧
      Writes (emit false none (flow measure mode false false false none [n])) (s ++ w) t := by
    simp only [nodeDoc, List.isEmpty_nil, if_true] at hwrites
    split at hwrites
    · next hempty =>
      rw [Print.atoms_paragraph] at hwrites
      exact ⟨[], rfl, by decide, by simpa using hempty, by simpa using hwrites⟩
    · next hfull =>
      simp only [Doc.atoms, Doc.atomsAll, Print.atoms_paragraph, List.append_nil] at hwrites
      exact ⟨[Byte.space], rfl, by decide, by simpa using hfull, hwrites⟩
  have hwrites : Writes (emit true none (Print.ownSteps measure mode n ++ [])) (s ++ w) t := by
    rw [flow_cons, hsolid, Bool.and_false, Bool.false_and, if_neg (by simp), flow] at hwrites
    obtain ⟨gap, hwrites, hgap, -⟩ := writes_lead hsolid hcode hwrites
    rw [hgap rfl, emit_own] at hwrites
    exact hwrites
  obtain ⟨u, hrest, hstem, hspells, htight, hbalances⟩ := hn hsteady (Node.even_bare hw hnil.1 heven) hwrites
  cases hrest
  refine ⟨w ++ u, by simp, hstem.append w, fun as v hv => ?_, by simpa using htight,
    fun hs => by simpa using hbalances.bare hw hnil.1 hback hs⟩
  exact .bare hw hshort hnil.1 (fun h _ => hnil.2 h) hspells hv

/-- An argument in brackets or braces. -/
theorem argFlows_delimited {space opening closing : Bytes} (hopening : Sign opening)
    (hclosing : Sign closing) (hcontent : NodesFlow r keep content) :
    (Node.branch span {} (.argument space opening closing) [] content).ArgFlows r keep := by
  have hne : opening ≠ [] := fun h => hopening.solid (by rw [h]; rfl)
  have htaken {y : Bytes} (hy : Spells r keep (.nodes {} content) y) :
      (Node.branch span {} (.argument space opening closing) [] content).Taken r keep
        (opening ++ y ++ closing) := by
    intro as v hv
    exact .delimited hne (w := []) rfl (by simp) (fun _ => rfl) hy hv
  constructor
  · intro measure mode s t hsteady _ _ hwrites
    rw [nodeDoc, if_neg (by simpa using hne)] at hwrites
    obtain ⟨y, rfl, hy, -⟩ := spells_delimited hopening hcontent (hsteady.steadyAll_content (by simp) rfl)
      hsteady.glue hwrites
    refine ⟨opening ++ y ++ closing, by simp, hclosing.stemmed.append _, htaken hy, ?_, fun _ => ?_⟩
    · rw [← List.append_assoc]
      exact hclosing.tight _
    · rw [← List.append_assoc]
      exact hclosing.even _
  · intro measure mode ss s t hsteady _ hwrites
    obtain ⟨y, hrest, hy⟩ := spells_delimitedSteps hopening hcontent
      (hsteady.steadyAll_content (by simp) rfl) hsteady.glue hwrites
    refine ⟨opening ++ y ++ closing, by simpa using hrest, hclosing.stemmed.append _, htaken hy, ?_, ?_⟩
    · rw [← List.append_assoc]
      exact hclosing.tight _
    · rw [← List.append_assoc]
      exact hclosing.even _

/-! ## containers -/

/-- The text between an opening and a closing is a spelling of a container. -/
theorem spells_container (shape : Shape) {s t x y : Bytes} (kind : shape.isContainer = true)
    (hclosing : Sign shape.closing) (hargs : Spells r keep (.args args) x)
    (hcontent : Spells r keep (.nodes (shape.before r args) content) y)
    (happart : shape.opening = [Byte.dollar] → y ≠ [])
    (ht : t = s ++ shape.opening ++ x ++ y ++ shape.closing) :
    ∃ u, t = s ++ u ∧ Stemmed u ∧ Spells r keep (.node (.branch span hints shape args content)) u ∧
      Tight (s ++ u) ∧ (Node.branch span hints shape args content).Balances s (s ++ u) := by
  refine ⟨shape.opening ++ x ++ y ++ shape.closing, by simpa using ht, hclosing.stemmed.append _,
    .container kind hargs hcontent happart, ?_, fun _ _ => ?_⟩
  · rw [← List.append_assoc]
    exact hclosing.tight _
  · rw [← List.append_assoc]
    exact hclosing.even _

theorem leader_of_trim {ns : List Node} {first : Node} {rest : List Node}
    (h : Node.trim ns = first :: rest) : leader ns = some first := by
  have hprefix : Node.trim ns <+: ns.dropWhile Node.isSpace := List.rdropWhile_prefix Node.isSpace _
  obtain ⟨more, hmore⟩ := h ▸ hprefix
  rw [leader, ← hmore]
  rfl

/-- Content on lines of its own. -/
theorem spells_block {b : Before} {opening closing : Doc} (hcontent : NodesFlow r keep content)
    (hsteady : SteadyAll r keep content) (hglue : hasGlue content = false)
    (hapart : b.hungry = true → beginsApart content = false)
    (hwrites : Writes (Print.block opening closing content
      (Print.paragraph (flow measure mode false true false none content))).atoms s t) :
    ∃ s₁ t₁, Writes opening.atoms s s₁ ∧ Writes closing.atoms t₁ t ∧
      (Tight s₁ → Even s₁ → ∃ y, t₁ = s₁ ++ y ∧ Spells r keep (.nodes b content) y) := by
  unfold Print.block at hwrites
  split at hwrites
  · next hempty =>
    simp only [Doc.atoms, Doc.atomsAll, List.append_nil] at hwrites
    obtain ⟨s₁, hopening, indent, hclosing⟩ := writes_append.1 hwrites
    refine ⟨s₁, _, hopening, hclosing, fun htight _ => ?_⟩
    refine ⟨Byte.newline :: Bytes.spaces indent, broken_tight htight indent,
      .done (Node.all_of_trim hempty) ?_⟩
    rw [Bytes.ink_cons_of_blank (by decide), Bytes.ink_spaces]
  · next first rest hfull =>
    simp only [Doc.atoms, Doc.atomsAll, List.append_nil] at hwrites
    obtain ⟨s₁, hopening, hwrites⟩ := writes_append.1 hwrites
    obtain ⟨t₂, hbody, indent, hclosing⟩ := writes_append.1 hwrites
    refine ⟨s₁, _, hopening, hclosing, fun htight heven => ?_⟩
    -- the content begins on a new line, unless it is a comment that stays
    obtain ⟨w, hw, hfresh, hflow⟩ : ∃ w, ink w = [] ∧
        ((leader content).any (·.comment?.isNone) = true → w ≠ [] ∨ b.sticky = false) ∧
        Writes (emit false none (flow measure mode false true false none content)) (s₁ ++ w) t₂ := by
      rw [leader_of_trim hfull]
      split at hbody
      · next hup =>
        rw [Print.atoms_paragraph] at hbody
        refine ⟨[], rfl, fun hcode => ?_, by simpa using hbody⟩
        rw [Option.any_some, Option.isNone_iff_eq_none] at hcode
        rw [hcode] at hup
        cases hup
      · simp only [Doc.atoms, Doc.atomsAll, Print.atoms_paragraph, List.append_nil] at hbody
        obtain ⟨indent, hbody⟩ := hbody
        rw [broken_tight htight] at hbody
        refine ⟨_, ?_, fun _ => .inl (by simp), hbody⟩
        rw [Bytes.ink_cons_of_blank (by decide), Bytes.ink_spaces]
    have hstart : Poised false none false true false b [] s₁ w content :=
      poised_start (fun _ => rfl) htight heven hw hfresh fun _ => hapart
    rw [← List.append_nil (flow _ _ _ _ _ _ _)] at hflow
    obtain ⟨begun, gap, x, w', hrest, hx⟩ := hcontent.enclosed hsteady hglue hstart hflow
    have hline : Writes (gapAtoms gap ++ [Atom.hardLine]) (s₁ ++ x ++ w') (broken indent t₂) :=
      writes_append.2 ⟨t₂, hrest, indent, rfl⟩
    obtain ⟨y, hy, hspells, -⟩ := hx.hardLine hline
    exact ⟨y, hy, hspells⟩

theorem laid_displayMath {opening closing : Bytes} (hopening : Sign opening) (hclosing : Sign closing)
    (hdollar : opening ≠ [Byte.dollar]) (hcontent : NodesFlow r keep content) :
    (Node.branch span {} (.displayMath opening closing) [] content).Laid r keep := by
  intro measure mode s t hsteady _ hwrites
  obtain ⟨s₁, t₁, hopen, hclose, hbody⟩ := spells_block (b := {}) hcontent
    (hsteady.steadyAll_content (by simp) rfl) hsteady.glue (fun h => by cases h) hwrites
  cases hopen
  cases hclose
  obtain ⟨y, rfl, hy⟩ := hbody (hopening.tight s) (hopening.even s)
  exact spells_container (.displayMath opening closing) rfl hclosing .noArgs hy
    (fun h => absurd h hdollar) (by simp [Shape.opening, Shape.closing])

/-- A formula with nothing but white space in it, and a paragraph break among that. -/
theorem spells_blank {opening closing : Bytes} (hopening : Sign opening)
    (hall : content.all Node.isSpace = true) (hany : content.any Node.isParbreak = true)
    (hwrites : Writes (Print.delimited opening closing content
      (Print.paragraph (flow measure mode false false false none content))).atoms s t) :
    ∃ y, t = s ++ opening ++ y ++ closing ∧ Spells r keep (.nodes {} content) y ∧ y ≠ [] := by
  rw [Print.delimited, Print.endsInComment_all hall, if_neg (by simp)] at hwrites
  simp only [Doc.atoms, Doc.atomsAll, Print.atoms_paragraph, List.append_nil] at hwrites
  rw [List.singleton_append, ← List.append_nil (flow _ _ _ _ _ _ _)] at hwrites
  obtain ⟨t₁, hspaces, hclose⟩ := writes_append.1 (show Writes (_ ++ _) (s ++ opening) t from hwrites)
  obtain ⟨gap, hgap, -, hrank⟩ := writes_spaces hall hspaces
  rw [emit, ← List.append_nil (s ++ opening)] at hgap
  obtain ⟨z, rfl, hz⟩ := widened_of_writes hgap (hopening.tight s) rfl
  refine ⟨z, hclose, .done (List.all_eq_true.1 hall) hz.white, fun hnil => ?_⟩
  have hlow := (hz.kept hnil).2
  have hfour := hrank hany
  omega

theorem laid_inlineMath {opening closing : Bytes} (hopening : Sign opening) (hclosing : Sign closing)
    (hdollar : opening = [Byte.dollar] → closing = [Byte.dollar]) (hcontent : NodesFlow r keep content) :
    (Node.branch span {} (.inlineMath opening closing) [] content).Laid r keep := by
  intro measure mode s t hsteady _ hwrites
  obtain ⟨y, rfl, hy, hne⟩ : ∃ y, t = s ++ opening ++ y ++ closing ∧ Spells r keep (.nodes {} content) y ∧
      (opening = [Byte.dollar] → y ≠ []) := by
    rw [nodeDoc] at hwrites
    split at hwrites
    · next hall =>
      have hspaces : ∀ n ∈ content, n.isSpace = true := fun n hn => by
        have hplain := List.all_eq_true.1 hall n hn
        unfold Node.isPlainSpace at hplain
        split at hplain
        · rfl
        · cases hplain
      split at hwrites
      · next hopen =>
        cases hwrites
        exact ⟨[Byte.space], by rw [hopen, hdollar hopen]; simp; rfl, .done hspaces rfl, fun _ => by simp⟩
      · next hopen =>
        cases hwrites
        exact ⟨[], by simp, .done hspaces rfl, fun h => absurd h hopen⟩
    · next hplain =>
      cases hall : content.all Node.isSpace with
      | true =>
        have hany : content.any Node.isParbreak = true := by
          obtain ⟨n, hn, hparbreak⟩ := List.all_eq_false.1 (Bool.eq_false_iff.2 hplain)
          refine List.any_eq_true.2 ⟨n, hn, ?_⟩
          have hspace := List.all_eq_true.1 hall n hn
          unfold Node.isSpace at hspace
          split at hspace
          · exact absurd rfl hparbreak
          · rfl
          · cases hspace
        obtain ⟨y, rfl, hy, hne⟩ := spells_blank (r := r) hopening hall hany hwrites
        exact ⟨y, rfl, hy, fun _ => hne⟩
      | false =>
        obtain ⟨y, rfl, hy, hne⟩ := spells_delimited hopening hcontent
          (hsteady.steadyAll_content (by simp) rfl) hsteady.glue hwrites
        exact ⟨y, rfl, hy, fun _ => hne hall⟩
  exact spells_container (.inlineMath opening closing) rfl hclosing .noArgs hy hne
    (by simp [Shape.opening, Shape.closing])

theorem laid_verbatim {name x : Bytes} (hname : Byte.newline ∉ name) (hargs : ArgsFlow r keep args) :
    (Node.branch span hints (.verbatim name x) args []).Laid r keep := by
  intro measure mode s t hsteady _ hwrites
  have hopening := sign_beginMarker hname
  have hclosing := sign_endMarker hname
  simp only [nodeDoc, Doc.atoms, Doc.atomsAll, List.append_nil, List.singleton_append] at hwrites
  obtain ⟨t₁, htaken, hwrites⟩ := writes_append.1 (show Writes (_ ++ _) (s ++ _) t from hwrites)
  obtain ⟨u, rfl, -, hu, -⟩ := hargs.1 (hsteady.steadyAll_args (by simp)) (hopening.tight s)
    (fun _ => hopening.even s) htaken
  cases hwrites
  refine ⟨Cursor.beginMarker name ++ u ++ x ++ Cursor.endMarker name, by simp, hclosing.stemmed.append _,
    .verbatim hu (.inl rfl), ?_, fun _ _ => ?_⟩
  · rw [← List.append_assoc]
    exact hclosing.tight _
  · rw [← List.append_assoc]
    exact hclosing.even _

/-- A group is printed from its raw text. -/
theorem laid_group (hn : (Node.branch span hints .group [] content).Reflows r keep)
    (hfilled : All (fun n => n.isFilled = true) content → All (fun n => n.isEmptyFormula = false) content) :
    (Node.branch span hints .group [] content).Laid r keep := by
  intro measure mode s t hsteady hcontrol hwrites
  rw [nodeDoc] at hwrites
  obtain ⟨g, hflow⟩ := Reflow.of_rawDocs hwrites
  have hempty : Each (fun n => n.isEmptyFormula = false) (.branch span hints .group [] content) :=
    Node.each_branch rfl (Node.all_nil _) (hfilled hsteady.filled.self)
  have hcalm : Each (Node.Calm r keep true) (.branch span hints .group [] content) := fun m hm =>
    ⟨fun _ => hsteady.loose.self rfl m hm, hsteady.unglued m hm, hempty m hm⟩
  obtain ⟨u, pads, rfl, -, hplain, hspells, htight, heven⟩ := hn hcalm hcontrol hflow
  obtain ⟨rfl, -⟩ := hplain (.inr rfl)
  refine ⟨u, by simp, ?_, hspells, htight, heven⟩
  cases hspells with
  | container kind taken inside apart =>
    exact (stemmed_of_getLast? (u := [Byte.closeBrace]) rfl (by decide)).append _

end

end TexTidy
