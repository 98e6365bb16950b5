import TexTidy.Proofs.Extent
import TexTidy.Proofs.Hazard

/-!
# TexTidy.Proofs.EmptyFormula

Where a double dollar sign can be an empty formula. For that it has to open a formula that goes on to the end of the
source, and where a formula goes on the source can be passed (`Derives.filled`). No way leads past what closes a group
or an environment, so no empty formula stands in one (`Derives.all_nonempty`). Verbatim text is not passed as a formula
goes on in it, so nothing is known of what stands in front of it.
-/

namespace TexTidy.Parse

variable {r : Registry} {mode mode' : Mode} {closer : Closer} {c d e f : Cursor} {t : Token} {n : Node}
  {p q : Option Nat × Cursor} {body : Sequence}

/-! ## places from which the source is passed -/

/-- The source can be passed to its end. -/
def Clear (r : Registry) (c : Cursor) : Prop :=
  ∃ q, Walk r (none, c) q ∧ q.2.rest = []

theorem halts_of_rest (h : p.2.rest = []) : Halts r p :=
  halts_of_gait (by rw [h]; rfl)

/-- What is passed on the way leaves the way open. -/
theorem Clear.walk (h : Clear r c) (hwalk : Walk r (none, c) (none, d)) : Clear r d := by
  obtain ⟨q, hq, hend⟩ := h
  rcases Relation.ReflTransGen.total_of_right_unique (stride_unique r) hwalk hq with hrest | hback
  · exact ⟨q, hrest, hend⟩
  · cases (halts_of_rest hend).eq_of_walk hback
    exact ⟨_, .refl, hend⟩

/-- A sequence that nothing closes goes on to the end of the source. -/
theorem Derives.clear (h : Derives r (.sequence mode closer c body)) (hopen : body.isOpen = true) : Clear r c :=
  ⟨_, h.walks.1, Cursor.rest_of_endOfInput h.stops (by simpa [Sequence.isOpen] using hopen)⟩

/-- What closes a sequence for all readings is never passed. -/
theorem Derives.not_clear (h : Derives r (.sequence mode closer c body)) (closed : body.isOpen = false)
    (hard : closer.IsHard) : ¬Clear r body.before := by
  rintro ⟨q, hq, hend⟩
  cases (h.halts closed hard).eq_of_walk hq
  have hstops : body.before.token = .ok (body.last, body.cursor) := h.stops
  rw [Cursor.token_of_nil hend] at hstops
  rw [Sequence.isOpen, ← (Prod.mk.inj (Except.ok.inj hstops)).1] at closed
  cases closed

/-! ## empty formulas -/

open Node (All Each annotateAll)

/-- Nothing that was read is an empty formula, unless the source can be passed to its end from behind it. In front of
    verbatim text that has to be known. -/
def Judgement.Filled (r : Registry) : Judgement → Prop
  | .sequence _ _ _ s => All (fun n => n.isFilled = true) (annotateAll r s.nodes) →
      All (fun n => n.isEmptyFormula = false) (annotateAll r s.nodes) ∨ Clear r s.before
  | .item _ _ n d => Each (fun n => n.isFilled = true) (n.annotate r) →
      Each (fun n => n.isEmptyFormula = false) (n.annotate r) ∨ Clear r d
  | .arguments _ _ _ args d => All (fun n => n.isFilled = true) (annotateAll r args) →
      All (fun n => n.isEmptyFormula = false) (annotateAll r args) ∨ Clear r d

theorem all_annotate_link {P : Node → Prop} {ns : List Node} (hleaf : ∀ s h l, P (.leaf s h l)) :
    All P (annotateAll r (link n ns)) ↔ Each P (n.annotate r) ∧ All P (annotateAll r ns) := by
  unfold link
  split
  · rw [annotateAll, Node.all_cons_iff]
    exact and_congr_left fun _ => ⟨fun _ => Node.each_leaf (hleaf _ _ _), fun _ => Node.each_leaf (hleaf _ _ _)⟩
  · rw [annotateAll, Node.all_cons_iff]

/-- A formula between single dollar signs has content. -/
theorem nodes_ne_nil_of_dollar (token : c.token = .ok (t, d)) (kind : t.kind = .dollar)
    (content : Derives r (.sequence .math .dollar d body)) (closed : body.isOpen = false) : body.nodes ≠ [] := by
  intro hnil
  have hnodes := content.moves.1
  have hclosing := content.half_reads closed
  have hopening := (Cursor.token_reads token).1
  have hscan := Cursor.scan?_of_token token
  rw [hnil] at hnodes
  cases hnodes.place
  rw [kind] at hopening hscan
  rw [hopening.text, hclosing.text] at hscan
  cases hscan

theorem filled_next {closer' later : Closer} {tail : Sequence} (rest : Derives r (.sequence mode later e tail))
    (ihHead : (Judgement.item mode c n e).Filled r) (ihRest : (Judgement.sequence mode later e tail).Filled r) :
    (Judgement.sequence mode closer' c { tail with nodes := link n tail.nodes }).Filled r := by
  intro hfilled
  obtain ⟨hn, htail⟩ := (all_annotate_link fun _ _ _ => rfl).1 hfilled
  rcases ihHead hn with hn | hclear
  · exact (ihRest htail).imp_left fun htail => (all_annotate_link fun _ _ _ => rfl).2 ⟨hn, htail⟩
  · exact .inr (hclear.walk rest.walks.1)

theorem Derives.all_of_filled (h : Derives r (.sequence mode closer c body)) (closed : body.isOpen = false)
    (hard : closer.IsHard) (ih : (Judgement.sequence mode closer c body).Filled r)
    (hfilled : All (fun n => n.isFilled = true) (annotateAll r body.nodes)) :
    All (fun n => n.isEmptyFormula = false) (annotateAll r body.nodes) :=
  (ih hfilled).resolve_right (h.not_clear closed hard)

theorem filled_formula {shape : Shape} (kind : formula? t.kind = some (closer, shape))
    (content : Derives r (.sequence .math closer d body)) (closed : body.isOpen = false)
    (ih : (Judgement.sequence .math closer d body).Filled r) :
    (Judgement.item mode c (.branch ⟨c.pos, body.cursor.pos⟩ {} shape [] body.nodes) body.cursor).Filled r := by
  intro hfilled
  have hbody := (Node.each_branch_iff.1 hfilled).2.2
  rcases formula?_cases kind with ⟨-, rfl, rfl⟩ | ⟨-, rfl, rfl⟩ | ⟨-, rfl, rfl⟩
  · refine (ih hbody).imp (fun h => Node.each_branch rfl (Node.all_nil _) h) fun hclear => hclear.walk ?_
    have hends : body.last.kind = .dollars := content.ends closed
    exact walk_dollars (Cursor.token_reads content.stops).1 (by rw [hends]; simp [Token.Kind.raw])
  · exact .inl (Node.each_branch rfl (Node.all_nil _) (content.all_of_filled closed (.inl rfl) ih hbody))
  · exact .inl (Node.each_branch rfl (Node.all_nil _) (content.all_of_filled closed (.inr rfl) ih hbody))

theorem filled_dollar {stop : Cursor} (token : c.token = .ok (t, d)) (kind : t.kind = .dollar)
    (content : Derives r (.sequence .math .dollar d body)) (closed : body.isOpen = false)
    (half : stop = if body.last.kind = .dollars then body.before.advance 1 else body.cursor)
    (ih : (Judgement.sequence .math .dollar d body).Filled r) :
    (Judgement.item mode c (.branch ⟨c.pos, stop.pos⟩ {} (.inlineMath [Byte.dollar] [Byte.dollar]) [] body.nodes)
      stop).Filled r := by
  intro hfilled
  refine (ih (Node.each_branch_iff.1 hfilled).2.2).imp (fun h => Node.each_branch ?_ (Node.all_nil _) h)
    fun hclear => hclear.walk ?_
  · cases hnodes : body.nodes with
    | nil => exact absurd hnodes (nodes_ne_nil_of_dollar token kind content closed)
    | cons m ms => rfl
  · have hclosing := content.half_reads closed
    rw [← half] at hclosing
    exact walk_dollars hclosing (by simp)

theorem filled_argument {kinds : List ArgKind} {arg : Node} {args : List Node}
    (others : Derives r (.arguments mode kinds e args d))
    (harg : Each (fun n => n.isFilled = true) (arg.annotate r) →
      Each (fun n => n.isEmptyFormula = false) (arg.annotate r) ∨ Clear r e)
    (ih : (Judgement.arguments mode kinds e args d).Filled r) :
    All (fun n => n.isFilled = true) (annotateAll r (arg :: args)) →
      All (fun n => n.isEmptyFormula = false) (annotateAll r (arg :: args)) ∨ Clear r d := by
  intro hfilled
  obtain ⟨hself, hothers⟩ := Node.all_cons_iff.1 hfilled
  rcases harg hself with hself | hclear
  · exact (ih hothers).imp_left fun hothers => Node.all_cons hself hothers
  · exact .inr (hclear.walk (others.walks none))

theorem filled_environment {name : Bytes} {kinds : List ArgKind} {args : List Node} {spec : EnvironmentSpec}
    {span : Span} (content : Derives r (.sequence mode' .environment f body)) (closed : body.isOpen = false)
    (ihArgs : (Judgement.arguments mode kinds e args f).Filled r)
    (ih : (Judgement.sequence mode' .environment f body).Filled r) :
    (Judgement.item mode c (.branch span {} (environmentShape spec name) args body.nodes) d).Filled r := by
  intro hfilled
  obtain ⟨-, hargs, hbody⟩ := Node.each_branch_iff.1 hfilled
  have hself : Node.isEmptyFormula (.branch span (r.hints (environmentShape spec name)) (environmentShape spec name)
      (annotateAll r args) (annotateAll r body.nodes)) = false := by
    unfold environmentShape
    split <;> rfl
  rcases ihArgs hargs with hargs | hclear
  · exact .inl (Node.each_branch hself hargs (content.all_of_filled closed trivial ih hbody))
  · exact absurd (hclear.walk content.walks.1) (content.not_clear closed trivial)

/-- **An empty formula is a double dollar sign that can be closed by nothing up to the end of the source.** -/
theorem Derives.filled {j : Judgement} (h : Derives r j) : j.Filled r := by
  induction h with
  | stop token closed => exact fun _ => .inl (Node.all_nil _)
  | next token pass more head rest ihHead ihRest => exact filled_next rest ihHead ihRest
  | leaf token plain => exact fun _ => .inl (Node.each_leaf rfl)
  | script token kind sign taken ih =>
    exact fun hfilled => (ih (Node.each_branch_iff.1 hfilled).2.1).imp_left fun hargs =>
      Node.each_branch rfl hargs (Node.all_nil _)
  | group token kind content closed ih =>
    exact fun hfilled => .inl (Node.each_branch rfl (Node.all_nil _)
      (content.all_of_filled closed trivial ih (Node.each_branch_iff.1 hfilled).2.2))
  | formula token kind content closed ih => exact filled_formula kind content closed ih
  | dollar token kind content closed half ih => exact filled_dollar token kind content closed half ih
  | emptyDollars token kind content unclosed => exact fun _ => .inr (content.clear unclosed)
  | environment token kind opening nodes taken content closed closing ihArgs ih =>
    exact filled_environment content closed ihArgs ih
  | verbatim token kind opening raw taken content =>
    intro hfilled
    have hargs : (Node.preorderAll (annotateAll r _)).all (fun n => !n.isEmptyFormula) = true := hfilled.self
    refine .inl (Node.each_branch rfl (fun m hm => ?_) (Node.all_nil _))
    simpa using List.all_eq_true.1 hargs m hm
  | verb token kind known free starred star_eq content => exact fun _ => .inl (Node.each_leaf rfl)
  | command token kind known free taken ih =>
    exact fun hfilled => (ih (Node.each_branch_iff.1 hfilled).2.1).imp_left fun hargs =>
      Node.each_branch rfl hargs (Node.all_nil _)
  | done => exact fun _ => .inl (Node.all_nil _)
  | absent missing others ih => exact ih
  | star sign others ih =>
    exact filled_argument others (fun _ => .inl (Node.each_branch rfl (Node.all_nil _)
      (Node.all_cons (Node.each_leaf rfl) (Node.all_nil _)))) ih
  | optional sign content closed others ihBody ih =>
    refine filled_argument others (fun hfilled => ?_) ih
    refine (ihBody (Node.each_branch_iff.1 hfilled).2.2).imp (Node.each_branch rfl (Node.all_nil _) ·)
      fun hclear => hclear.walk ?_
    have hends : _ = Token.Kind.closeBracket := content.ends closed
    exact walk_bracket content.stops (by rw [hends]; rfl) (.inr rfl) rfl
  | braced sign content closed others ihBody ih =>
    refine filled_argument others (fun hfilled => .inl (Node.each_branch rfl (Node.all_nil _) ?_)) ih
    exact content.all_of_filled closed trivial ihBody (Node.each_branch_iff.1 hfilled).2.2
  | bareCommand token kind known free others ih =>
    exact filled_argument others (fun _ => .inl (Node.each_branch rfl (Node.all_nil _)
      (Node.all_cons (Node.each_branch rfl (Node.all_nil _) (Node.all_nil _)) (Node.all_nil _)))) ih
  | bareCharacter sign inert content others ih =>
    exact filled_argument others (fun _ => .inl (Node.each_branch rfl (Node.all_nil _)
      (Node.all_cons (Node.each_leaf rfl) (Node.all_nil _)))) ih

/-- Nothing that is closed for all readings holds an empty formula, apart from what stands in front of verbatim text. -/
theorem Derives.all_nonempty (h : Derives r (.sequence mode closer c body)) (closed : body.isOpen = false)
    (hard : closer.IsHard) (hfilled : All (fun n => n.isFilled = true) (annotateAll r body.nodes)) :
    All (fun n => n.isEmptyFormula = false) (annotateAll r body.nodes) :=
  h.all_of_filled closed hard h.filled hfilled

end TexTidy.Parse
