import TexTidy.Proofs.Lexeme
import TexTidy.Proofs.Reread

/-!
# TexTidy.Proofs.Reflow

Parts of a tree that are printed from their raw text. In a group the line breaks of the text become those of
the layout, and blanks that are alone on a line go; in the cells of a table nothing changes. `Reflow` is what
can become of raw text in either place.

`Derives.reflows`: what can become of the raw text of a parsed tree is a spelling of it.
-/

namespace TexTidy

open Bytes (ink)
open Text (Tight Even tight_append even_append)
open Layout (broken Writes Doc)

/-! ## what can become of raw text -/

/-- Writing pieces of raw text behind a text can give another one. The flags say whether a line break was the
    last piece, before and after. Without `lax` nothing changes. -/
inductive Reflow (lax : Bool) : Bool → List Bytes → Bytes → Bool → Bytes → Prop
  | done {f s} : Reflow lax f [] s f s
  | keep {f p ps s g t} (rest : Reflow lax (p == [Byte.newline]) ps (s ++ p) g t) :
      Reflow lax f (p :: ps) s g t
  /-- A line break of the layout. -/
  | wrap {f ps s indent g t} (free : lax = true) (rest : Reflow lax true ps (broken indent s) g t) :
      Reflow lax f ([Byte.newline] :: ps) s g t
  /-- Blanks that are alone on a line go. -/
  | drop {p ps s g t} (free : lax = true) (blank : p.all isLineBlank = true)
      (rest : Reflow lax false ps s g t) : Reflow lax true (p :: ps) s g t

namespace Reflow

variable {lax f g : Bool} {ps qs : List Bytes} {p s t w x : Bytes}

/-- Raw text that is laid out line by line. -/
theorem of_rawDocs (h : Writes (Doc.atomsAll (Print.rawDocs f ps)) s t) : ∃ g, Reflow true f ps s g t := by
  induction ps generalizing f s with
  | nil => exact ⟨f, h ▸ .done⟩
  | cons p ps ih =>
    rw [Print.rawDocs] at h
    split at h
    · next hp =>
      subst hp
      obtain ⟨indent, h⟩ := h
      obtain ⟨g, hrest⟩ := ih h
      exact ⟨g, .wrap rfl hrest⟩
    · next hp =>
      split at h
      · next hblank =>
        obtain ⟨rfl, hblank⟩ := Bool.and_eq_true_iff.1 hblank
        obtain ⟨g, hrest⟩ := ih h
        exact ⟨g, .drop rfl hblank hrest⟩
      · obtain ⟨g, hrest⟩ := ih h
        exact ⟨g, .keep (by rwa [beq_eq_false_iff_ne.2 hp])⟩

/-- Raw text that stays as it is. -/
theorem of_flatten (lax f : Bool) (ps : List Bytes) (s : Bytes) :
    ∃ g, Reflow lax f ps s g (s ++ ps.flatten) := by
  induction ps generalizing f s with
  | nil => exact ⟨f, by simpa using .done⟩
  | cons p ps ih =>
    obtain ⟨g, hrest⟩ := ih (p == [Byte.newline]) (s ++ p)
    exact ⟨g, .keep (by simpa using hrest)⟩

theorem split (h : Reflow lax f (ps ++ qs) s g t) :
    ∃ k u, Reflow lax f ps s k u ∧ Reflow lax k qs u g t := by
  induction ps generalizing f s with
  | nil => exact ⟨f, s, .done, h⟩
  | cons p ps ih =>
    rw [List.cons_append] at h
    cases h with
    | keep rest =>
      obtain ⟨k, u, hps, hqs⟩ := ih rest
      exact ⟨k, u, .keep hps, hqs⟩
    | wrap free rest =>
      obtain ⟨k, u, hps, hqs⟩ := ih rest
      exact ⟨k, u, .wrap free hps, hqs⟩
    | drop free blank rest =>
      obtain ⟨k, u, hps, hqs⟩ := ih rest
      exact ⟨k, u, .drop free blank hps, hqs⟩

/-- A piece with ink on it stays. -/
theorem solid (h : Reflow lax f (p :: ps) s g t) (hp : ink p ≠ []) : Reflow lax false ps (s ++ p) g t := by
  cases h with
  | keep rest =>
    have hne : (p == [Byte.newline]) = false := beq_eq_false_iff_ne.2 fun h => hp (by rw [h]; rfl)
    rwa [hne] at rest
  | wrap => exact absurd rfl hp
  | drop free blank rest =>
    exact absurd (Bytes.ink_eq_nil_iff.2 fun b hb =>
      Bytes.isBlank_of_isLineBlank (List.all_eq_true.1 blank b hb)) hp

theorem nil (h : Reflow lax f [] s g t) : g = f ∧ t = s := by
  cases h
  exact ⟨rfl, rfl⟩

/-- Text on one line stays. -/
theorem text (h : Reflow lax f (Bytes.linePieces x) s g t) (hx : ink x ≠ []) (hline : Byte.newline ∉ x) :
    g = false ∧ t = s ++ x := by
  rw [linePieces_of_line (fun hnil => hx (by rw [hnil]; rfl)) hline] at h
  exact (h.solid hx).nil

theorem count_lineBlank {p : Bytes} (h : p.all isLineBlank = true) : p.count Byte.newline = 0 :=
  List.count_eq_zero.2 fun hmem => by cases List.all_eq_true.1 h _ hmem

/-- White space stays white space, with as many newlines. -/
theorem white (h : Reflow lax f ps (s ++ w) g t) (hs : Tight s) (hw : ink w = [])
    (hps : ink ps.flatten = []) :
    ∃ w', t = s ++ w' ∧ ink w' = [] ∧
      w'.count Byte.newline = w.count Byte.newline + ps.flatten.count Byte.newline ∧
      (w' = [] → w = [] ∧ (ps.flatten = [] ∨ lax = true ∧ f = true)) ∧
      (g = true → f = true ∨ w' ≠ []) := by
  generalize hu : s ++ w = u at h
  induction h generalizing w with
  | done => exact ⟨w, hu.symm, hw, by simp, fun h => ⟨h, .inl rfl⟩, .inl⟩
  | @keep f p ps u g t rest ih =>
    subst hu
    rw [List.flatten_cons, Bytes.ink_append, List.append_eq_nil_iff] at hps
    obtain ⟨w', rfl, hw', hcount, hnil, hflag⟩ := ih (w := w ++ p) (by simp [hw, hps.1]) hps.2 (by simp)
    refine ⟨w', rfl, hw', ?_, fun h => ?_, fun h => ?_⟩
    · rw [hcount]
      simp only [List.count_append, List.flatten_cons]
      omega
    · obtain ⟨hwp, hor⟩ := hnil h
      obtain ⟨rfl, rfl⟩ := List.append_eq_nil_iff.1 hwp
      exact ⟨rfl, .inl (by simpa using hor)⟩
    · rcases hflag h with hp | h
      · refine .inr fun hnil' => ?_
        obtain ⟨hwp, -⟩ := hnil hnil'
        rw [(List.append_eq_nil_iff.1 hwp).2] at hp
        cases hp
      · exact .inr h
  | @wrap f ps u indent g t free rest ih =>
    subst hu
    obtain ⟨v, hbroken, hv, hone⟩ := Layout.broken_append hs hw indent
    rw [List.flatten_cons, Bytes.ink_append] at hps
    obtain ⟨w', rfl, hw', hcount, hnil, -⟩ := ih hv hps hbroken.symm
    have hne : w' ≠ [] := fun h => by
      rw [(hnil h).1] at hone
      simp at hone
    refine ⟨w', rfl, hw', ?_, fun h => absurd h hne, fun _ => .inr hne⟩
    rw [hcount, hone, List.flatten_cons, List.count_append, List.count_singleton_self]
    omega
  | @drop p ps u g t free blank rest ih =>
    rw [List.flatten_cons, Bytes.ink_append, List.append_eq_nil_iff] at hps
    obtain ⟨w', rfl, hw', hcount, hnil, hflag⟩ := ih hw hps.2 hu
    refine ⟨w', rfl, hw', ?_, fun h => ⟨(hnil h).1, .inr ⟨free, rfl⟩⟩, fun h => .inl rfl⟩
    rw [hcount, List.flatten_cons, List.count_append, count_lineBlank blank, Nat.zero_add]

/-- The ink stays. -/
theorem ink_eq (h : Reflow lax f ps s g t) : ink t = ink s ++ ink ps.flatten := by
  induction h with
  | done => simp
  | keep rest ih => simp [ih]
  | wrap free rest ih =>
    rw [ih, broken, Bytes.ink_append, Text.ink_stripEnd fun _ => Bytes.isBlank_of_isPad,
      Bytes.ink_cons_of_blank (by decide), Bytes.ink_spaces, List.flatten_cons, List.singleton_append,
      Bytes.ink_cons_of_blank (by decide), List.append_nil]
  | drop free blank rest ih =>
    rw [ih, List.flatten_cons, Bytes.ink_append, Bytes.ink_eq_nil_iff.2 fun b hb =>
      Bytes.isBlank_of_isLineBlank (List.all_eq_true.1 blank b hb), List.nil_append]

/-- Something stays of every text. -/
theorem ne_nil {u : Bytes} (h : Reflow lax f ps s g (s ++ u)) (hs : Tight s)
    (hflag : lax = true → f = false) (hps : ps.flatten ≠ []) : u ≠ [] := by
  by_cases hink : ink ps.flatten = []
  · rw [← List.append_nil s] at h
    obtain ⟨w, hw, -, -, hnil, -⟩ := h.white hs rfl hink
    rw [List.append_nil] at hw
    rw [List.append_cancel_left hw]
    intro hw
    rcases (hnil hw).2 with hempty | ⟨hlax, hf⟩
    · exact hps hempty
    · rw [hflag hlax] at hf
      cases hf
  · rintro rfl
    have := h.ink_eq
    rw [List.append_nil] at this
    exact hink (List.self_eq_append_right.1 this)

/-- A line stays, up to the blanks at its end, when its line break is kept or replaced. -/
theorem newline (h : Reflow lax false ([Byte.newline] :: ps) (s ++ x) g t) (hs : Tight s)
    (hps : ink ps.flatten = []) :
    ∃ line w, t = s ++ line ++ Byte.newline :: w ∧ line <+: x ∧
      line.trimEnd isLineBlank = x.trimEnd isLineBlank ∧ ink w = [] ∧
      w.count Byte.newline = ps.flatten.count Byte.newline := by
  have htight (line : Bytes) : Tight (s ++ line ++ [Byte.newline]) := tight_append rfl rfl
  cases h with
  | keep rest =>
    rw [← List.append_nil (s ++ x ++ [Byte.newline])] at rest
    obtain ⟨w, rfl, hw, hcount, -⟩ := rest.white (htight x) rfl hps
    exact ⟨x, w, by simp, List.prefix_rfl, rfl, hw, by simpa using hcount⟩
  | wrap free rest =>
    obtain ⟨line, pads, rfl, hpads, hstrip⟩ := Text.stripEnd_append hs x
    rw [broken, hstrip, ← List.singleton_append, ← List.append_assoc] at rest
    obtain ⟨w, rfl, hw, hcount, -⟩ := rest.white (htight line) (Bytes.ink_spaces _) hps
    refine ⟨line, w, by simp, List.prefix_append _ _, ?_, hw, ?_⟩
    · rw [Bytes.trimEnd_append _ fun b hb => ?_]
      simp [isLineBlank, hpads b hb]
    · rw [hcount, Bytes.count_spaces, Nat.zero_add]

/-- The same for either kind of line break. -/
theorem lineEnd {y : Bytes} (h : Reflow lax false (Bytes.linePieces y) (s ++ x) g t) (hs : Tight s)
    (hx : Byte.newline ∉ x) (hy : ink y = []) (hbreaks : BreaksLine y) :
    ∃ line w, t = s ++ line ++ Byte.newline :: w ∧ Byte.newline ∉ line ∧
      line.trimEnd isLineBlank = x.trimEnd isLineBlank ∧ ink w = [] ∧
      w.count Byte.newline + 1 = y.count Byte.newline := by
  obtain ⟨z, rfl | rfl⟩ := hbreaks
  · rw [linePieces_newline] at h
    rw [Bytes.ink_cons_of_blank (by decide)] at hy
    obtain ⟨line, w, rfl, hline, hsame, hw, hcount⟩ := h.newline hs (by simpa using hy)
    refine ⟨line, w, rfl, fun hmem => hx (hline.subset hmem), hsame, hw, ?_⟩
    rw [hcount, Bytes.flatten_linePieces, List.count_cons_self]
  · have hpieces : Bytes.linePieces (Byte.carriageReturn :: Byte.newline :: z) =
        [Byte.carriageReturn] :: [Byte.newline] :: Bytes.linePieces z := by
      rw [Bytes.linePieces, linePieces_newline]
      rfl
    rw [hpieces] at h
    rw [Bytes.ink_cons_of_blank (by decide), Bytes.ink_cons_of_blank (by decide)] at hy
    cases h with
    | keep rest =>
      rw [List.append_assoc] at rest
      obtain ⟨line, w, rfl, hline, hsame, hw, hcount⟩ := rest.newline hs (by simpa using hy)
      refine ⟨line, w, rfl, fun hmem => ?_, ?_, hw, ?_⟩
      · exact hx ((List.mem_append.1 (hline.subset hmem)).resolve_right (by decide))
      · rw [hsame, Bytes.trimEnd_append _ (by simp [isLineBlank])]
      · rw [hcount, Bytes.flatten_linePieces, List.count_cons_of_ne (by decide), List.count_cons_self]

end Reflow

/-! ## spellings of comments -/

namespace Spells

variable {r : Registry} {keep : Bool} {b : Before} {us ns : List Node} {n : Node} {s w line : Bytes}

/-- White space can be put in front of a sequence that nothing stands before. -/
theorem blank (h : Spells r keep (.nodes {} ns) s) (hw : ink w = []) :
    Spells r keep (.nodes {} ns) (w ++ s) := by
  generalize hb : ({} : Before) = b at h
  cases h with
  | done spaces white => exact .done spaces (by simp [hw, white])
  | @item _ us v n t ns s gap solid code head rest =>
    subst hb
    rw [show w ++ (v ++ t ++ s) = w ++ v ++ t ++ s by simp]
    refine .item ⟨gap.spaces, by simp [hw, gap.white], fun _ _ => rfl, fun h => ?_⟩ solid code head rest
    cases h
  | @comment _ us v s' h c before content ns s spaces white same ends rest =>
    rw [← List.append_assoc]
    exact .comment spaces (by simp [hw, white]) same ends rest

/-- A comment is spelled by a line with its content. -/
theorem remarkLine {c : Comment} (h : Spells r keep (.nodes {} ns) s) (hus : ∀ u ∈ us, u.isSpace = true)
    (hn : n.comment? = some c) (hw : ink w = []) (hline : Byte.newline ∉ line)
    (hsame : line.trimEnd isLineBlank = c.content.trimEnd isLineBlank) :
    Spells r keep (.nodes b (us ++ n :: ns)) (w ++ Byte.percent :: (line ++ Byte.newline :: s)) := by
  obtain ⟨span, hints, before, rfl⟩ := Node.exists_of_comment? hn
  by_cases hlast : line.getLast? = some Byte.carriageReturn
  · -- the carriage return belongs to the line break
    obtain ⟨line, rfl⟩ := List.getLast?_eq_some_iff.1 hlast
    rw [Bytes.trimEnd_append _ (by simp [isLineBlank])] at hsame
    rw [List.append_assoc]
    refine .comment hus hw hsame ⟨fun hmem => hline (List.mem_append_left _ hmem), .inr ⟨s, rfl⟩⟩ ?_
    exact blank (w := [Byte.carriageReturn, Byte.newline]) h rfl
  · exact .comment hus hw hsame ⟨hline, .inl ⟨s, rfl, hlast⟩⟩ (blank (w := [Byte.newline]) h rfl)

end Spells

/-! ## signs -/

/-- A text on one line that can stand before or after anything. -/
structure Sign (x : Bytes) : Prop where
  solid : ink x ≠ []
  line : Byte.newline ∉ x
  last : ∃ b, x.getLast? = some b ∧ isPad b = false ∧ b ≠ Byte.backslash

namespace Sign

variable {x s : Bytes}

theorem tight (h : Sign x) (s : Bytes) : Tight (s ++ x) := by
  obtain ⟨b, hb, hpad, -⟩ := h.last
  exact tight_append hb hpad

theorem even (h : Sign x) (s : Bytes) : Even (s ++ x) := by
  obtain ⟨b, hb, -, hcode⟩ := h.last
  exact even_append hb hcode

theorem of_plain (h : Plain x) : Sign x := by
  obtain ⟨b, hb, hpad, hcode⟩ := h.last
  refine ⟨fun hink => ?_, h.newline, b, hb, hpad, hcode⟩
  have hmem := List.mem_of_getLast? hb
  have hblank := Bytes.ink_eq_nil_iff.1 hink b hmem
  rw [h.solid b hmem] at hblank
  cases hblank

theorem cons {b : UInt8} (h : Sign x) (hb : b ≠ Byte.newline) : Sign (b :: x) := by
  obtain ⟨a, ha, hlast⟩ := h.last
  refine ⟨fun hink => h.solid (Bytes.ink_of_append (s := [b]) hink), ?_, a, ?_, hlast⟩
  · simpa [Ne.symm hb] using h.line
  · rw [List.getLast?_cons, ha]
    rfl

end Sign

theorem Cursor.newline_not_mem_environmentName {c d : Cursor} {name : Bytes}
    (h : c.environmentName = .ok (name, d)) : Byte.newline ∉ name := by
  unfold environmentName at h
  split at h
  · cases h
  · split at h
    · cases h
    · split at h
      · cases h
      · next hname =>
        cases h
        intro hmem
        refine hname ?_
        rw [Bool.or_eq_true]
        exact .inr (List.any_eq_true.2 ⟨_, hmem, rfl⟩)

theorem sign_beginMarker {name : Bytes} (h : Byte.newline ∉ name) : Sign (Cursor.beginMarker name) := by
  refine ⟨?_, ?_, Byte.closeBrace, by simp [Cursor.beginMarker], by decide, by decide⟩
  · rw [Cursor.beginMarker, Bytes.ink_append, Bytes.ink_append]
    simp [show ink [Byte.closeBrace] = [Byte.closeBrace] from rfl]
  · intro hmem
    simp only [Cursor.beginMarker, List.mem_append, List.mem_singleton] at hmem
    rcases hmem with (hmem | hmem) | hmem
    · revert hmem
      decide
    · exact h hmem
    · cases hmem

theorem sign_endMarker {name : Bytes} (h : Byte.newline ∉ name) : Sign (Cursor.endMarker name) := by
  refine ⟨?_, ?_, Byte.closeBrace, by simp [Cursor.endMarker], by decide, by decide⟩
  · rw [Cursor.endMarker, Bytes.ink_append, Bytes.ink_append]
    simp [show ink [Byte.closeBrace] = [Byte.closeBrace] from rfl]
  · intro hmem
    simp only [Cursor.endMarker, List.mem_append, List.mem_singleton] at hmem
    rcases hmem with (hmem | hmem) | hmem
    · revert hmem
      decide
    · exact h hmem
    · cases hmem

/-! ## the invariant -/

namespace Node

/-- The node can be printed from its raw text; if line breaks are replaced, blanks behind them have no
    meaning for it. -/
def Calm (r : Registry) (keep lax : Bool) (n : Node) : Prop :=
  (lax = true → n.isLoose r keep = true) ∧ n.isUnglued = true ∧ n.isEmptyFormula = false

/-- When a node was written behind `s` and what stands there is `t`, that ends in no backslash that waits for a name,
    unless the node is verbatim text, or made of backslashes and written behind such a backslash. -/
def Balances (n : Node) (s t : Bytes) : Prop :=
  n.endsInBackslash = false → (n.isBackslashes = true → Even s) → Even t

/-- What can become of the raw text of the node is a spelling of it. Behind the end of a line blanks can
    follow. -/
def Reflows (r : Registry) (keep : Bool) (n : Node) : Prop :=
  ∀ ⦃lax f g s t⦄, Each (Calm r keep lax) n → (n.isControl = true → Even s) → Reflow lax f n.rawPieces s g t →
    ∃ u pads, t = s ++ u ++ pads ∧ (∀ b ∈ pads, isPad b = true) ∧
      (lax = false ∨ n.isLineEnd r = false → pads = [] ∧ (lax = true → g = false)) ∧
      Spells r keep (.node n) u ∧ Tight (s ++ u) ∧ n.Balances s (s ++ u)

/-- The same for arguments. -/
def ArgsReflow (r : Registry) (keep : Bool) (as : List Node) : Prop :=
  ∀ ⦃lax f g s t⦄, (lax = true → f = false) → All (Calm r keep lax) as → Tight s →
    (leadsToControl as = true → Even s) → Reflow lax f (rawPiecesAll as) s g t →
    ∃ u, t = s ++ u ∧ Spells r keep (.args as) u ∧ (lax = true → g = false) ∧ Tight (s ++ u) ∧
      ((as.all isBackslashes = true → Even s) → Even (s ++ u))

end Node

/-- Where a sequence is printed from its raw text: `s` is written, and behind it the white space `w` for the
    nodes `us`. -/
structure Standing (lax f : Bool) (b : Before) (us : List Node) (s w : Bytes) (ns : List Node) : Prop where
  tight : Tight s
  white : ink w = []
  spaces : ∀ u ∈ us, u.isSpace = true
  kept : us ≠ [] ∨ lax = true ∧ f = true → w = [] → b.sticky = false
  broken : b.hungry = true → (∃ u ∈ us, u.isParbreak = true) → 2 ≤ w.count Byte.newline
  even : w = [] → b.sticky = false ∨ Node.leadsToControl ns = true → Even s

/-- The same for a sequence that is read from `c` on. The second part is about a comment that stands before
    it and ends where it begins. -/
def Node.NodesReflow (r : Registry) (keep : Bool) (c : Cursor) (ns : List Node) : Prop :=
  (∀ ⦃lax f g b us s w t⦄, Node.All (Node.Calm r keep lax) ns → Node.hasGlue ns = false →
    Standing lax f b us s w ns → Reflow lax f (Node.rawPiecesAll ns) (s ++ w) g t →
    ∃ u, t = s ++ u ∧ Spells r keep (.nodes b (us ++ ns)) u) ∧
  (∀ ⦃lax g s x t⦄, Node.All (Node.Calm r keep lax) ns → Node.hasGlue ns = false → Tight s →
    Byte.newline ∉ x → BreaksLine c.rest → Reflow lax false (Node.rawPiecesAll ns) (s ++ x) g t →
    ∃ line u, t = s ++ line ++ Byte.newline :: u ∧ Byte.newline ∉ line ∧
      line.trimEnd isLineBlank = x.trimEnd isLineBlank ∧ Spells r keep (.nodes {} ns) u)

/-- What can become of the raw text of what was read is a spelling of it. -/
def Parse.Judgement.Reflows (r : Registry) (keep : Bool) : Parse.Judgement → Prop
  | .item _ _ n _ => n.isSpace = false → n.comment? = none → (n.annotate r).Reflows r keep
  | .arguments _ _ _ args _ => Node.ArgsReflow r keep (Node.annotateAll r args)
  | .sequence _ _ c body => body.isOpen = false → Node.NodesReflow r keep c (Node.annotateAll r body.nodes)

namespace Node

theorem rawPiecesAll_cons (n : Node) (ns : List Node) :
    rawPiecesAll (n :: ns) = n.rawPieces ++ rawPiecesAll ns := by
  rw [rawPiecesAll]

theorem hasGlue_cons {n : Node} {ns : List Node} (h : hasGlue (n :: ns) = false) :
    hasGlue ns = false ∧ (n.endsInBackslash = true → leadsToControl ns = false) := by
  rw [hasGlue, Bool.or_eq_false_iff] at h
  exact ⟨h.2, fun hn => by simpa [hn] using h.1⟩

theorem all_rawAll (ns : List Node) : (rawAll ns).all (· == Byte.backslash) = ns.all isBackslashes := by
  induction ns with
  | nil => rfl
  | cons n ns ih => rw [rawAll_cons, List.all_append, ih, List.all_cons, isBackslashes]

theorem leadsToControl_cons {n : Node} {ns : List Node} :
    leadsToControl (n :: ns) = true ↔ n.isControl = true ∨ n.isBackslashes = true ∧ leadsToControl ns = true := by
  rw [leadsToControl, Bool.or_eq_true, Bool.and_eq_true]

/-- A double backslash is made of backslashes if its arguments are. -/
theorem isBackslashes_double {span : Span} {hints : Hints} {name : Bytes} {args : List Node}
    (hname : name = [Byte.backslash]) (hargs : args.all isBackslashes = true) :
    (Node.branch span hints (.command Parse.escape name) args []).isBackslashes = true := by
  rw [← all_rawAll] at hargs
  simpa [isBackslashes, raw_branch, Shape.opening, Shape.closing, Parse.escape, hname] using hargs

/-- The end of a line is neither verbatim text nor made of backslashes. -/
theorem endsInBackslash_of_isLineEnd {r : Registry} {n : Node} (h : n.isLineEnd r = true) :
    n.endsInBackslash = false ∧ n.isBackslashes = false := by
  cases n with
  | leaf => cases h
  | branch span hints shape args content =>
    refine ⟨rfl, ?_⟩
    cases shape with
    | command escape name =>
      rw [isLineEnd, controlName?_command, Bool.and_eq_true, beq_iff_eq, Option.ite_none_right_eq_some] at h
      obtain ⟨⟨-, ⟨⟩⟩, -⟩ := h
      refine List.all_eq_false.2 ⟨Byte.newline, ?_, by decide⟩
      simp [raw_branch, Shape.opening]
    | _ => cases h

section

variable {n : Node} {ns : List Node} {s t : Bytes}

/-- What a control space behind the first node asks for is there, if it was there before that node. -/
theorem even_of_leads (h : (n.isBackslashes = true → Even s) → Even t) (hs : leadsToControl (n :: ns) = true → Even s)
    (hleads : leadsToControl ns = true) : Even t :=
  h fun hslashes => hs (leadsToControl_cons.2 (.inr ⟨hslashes, hleads⟩))

theorem even_of_all (h : (n.isBackslashes = true → Even s) → Even t)
    (hs : (n :: ns).all isBackslashes = true → Even s) (hall : ns.all isBackslashes = true) : Even t :=
  h fun hslashes => hs (by rw [List.all_cons, hslashes, hall]; rfl)

/-- **Nothing spoils a control space** that comes after a node. -/
theorem Balances.even {r : Registry} (h : n.Balances s t) (hglue : hasGlue (n :: ns) = false)
    (hs : leadsToControl (n :: ns) = true → Even s) (hor : (n.before r).sticky = false ∨ leadsToControl ns = true) :
    Even t := by
  rcases hor with hline | hleads
  · obtain ⟨hverb, hother⟩ := endsInBackslash_of_isLineEnd (r := r) (by simpa [Node.before] using hline)
    exact h hverb fun hslashes => absurd hslashes (by simp [hother])
  · refine even_of_leads (h (Bool.eq_false_iff.2 fun hverb => ?_)) hs hleads
    rw [(hasGlue_cons hglue).2 hverb] at hleads
    cases hleads

end

end Node

/-- What stands before a command serves its arguments as well. -/
theorem Named.balances {span : Span} {hints : Hints} {args : List Node} {name s : Bytes} (hname : Named name)
    (hs : (Node.branch span hints (.command Parse.escape name) args []).isControl = true → Even s) :
    Tight (s ++ (Parse.escape ++ name)) ∧
      (Node.leadsToControl args = true → Even (s ++ (Parse.escape ++ name))) ∧
      (((Node.branch span hints (.command Parse.escape name) args []).isBackslashes = true → Even s) →
        args.all Node.isBackslashes = true → Even (s ++ (Parse.escape ++ name))) := by
  obtain ⟨htight, heven⟩ := hname.tight_even (s := s) fun h => hs (by simp [Node.isControl, Parse.escape, h])
  refine ⟨htight, fun h => heven fun hdouble => hs ?_, fun hslashes h => heven fun hdouble => hslashes ?_⟩
  · simp [Node.isControl, Parse.escape, hdouble, h]
  · exact Node.isBackslashes_double hdouble h

/-- White space behind a text ends in no backslash. -/
theorem even_of_white {s w : Bytes} (hw : ink w = []) (h : w = [] → Even s) : Even (s ++ w) := by
  cases hlast : w.getLast? with
  | none =>
    cases List.getLast?_eq_none_iff.1 hlast
    simpa using h rfl
  | some b =>
    refine even_append hlast ?_
    rintro rfl
    cases Bytes.ink_eq_nil_iff.1 hw _ (List.mem_of_getLast? hlast)

namespace Node

variable {span : Span} {hints : Hints} {n : Node} {space s t w : Bytes}

/-- In a bare argument a control space is what it was. -/
theorem even_bare (hw : ink w = []) (hnil : w = [] → space = [])
    (h : (Node.branch span hints (.argument space [] []) [] [n]).isControl = true → Even s)
    (hn : n.isControl = true) : Even (s ++ w) :=
  even_of_white hw fun hempty => h (by simp [isControl, leadsToControl, hnil hempty, hn])

/-- And so are backslashes. -/
theorem Balances.bare (hw : ink w = []) (hnil : w = [] → space = []) (hback : n.endsInBackslash = false)
    (h : n.Balances (s ++ w) t)
    (hs : (Node.branch span hints (.argument space [] []) [] [n]).isBackslashes = true → Even s) : Even t :=
  h hback fun hslashes => even_of_white hw fun hempty => hs (by
    simpa [isBackslashes, raw_branch, Shape.opening, Shape.closing, hnil hempty] using hslashes)

end Node

/-! ## sequences -/

section

open Node (NodesReflow All Calm hasGlue rawPiecesAll)

variable {r : Registry} {keep : Bool} {c d : Cursor} {n : Node} {ns : List Node}

theorem Standing.nil {lax f g : Bool} {b : Before} {us : List Node} {s w t : Bytes}
    (h : Standing lax f b us s w []) (hflow : Reflow lax f [] (s ++ w) g t) :
    ∃ u, t = s ++ u ∧ Spells r keep (.nodes b us) u :=
  ⟨w, hflow.nil.2, .done h.spaces h.white⟩

theorem nodesReflow_nil (hc : ¬ BreaksLine c.rest) : NodesReflow r keep c [] := by
  constructor
  · intro lax f g b us s w t _ _ hstanding hflow
    rw [List.append_nil]
    exact hstanding.nil hflow
  · intro lax g s x t _ _ _ _ hbreaks
    exact absurd hbreaks hc

/-- White space is carried over to the next node. -/
theorem Standing.space {lax f g : Bool} {b : Before} {us : List Node} {s w t : Bytes}
    (h : Standing lax f b us s w (n :: ns)) (hn : n.isSpace = true) (hraw : ink n.raw = [])
    (hne : n.raw ≠ []) (hbreak : n.isParbreak = true → 2 ≤ n.raw.count Byte.newline)
    (hflow : Reflow lax f n.rawPieces (s ++ w) g t) :
    ∃ w', t = s ++ w' ∧ Standing lax g b (us ++ [n]) s w' ns := by
  obtain ⟨w', rfl, hw', hcount, hnil, hflag⟩ := hflow.white h.tight h.white hraw
  -- the white space can only vanish where the end of a line was a command
  have hloose (hw' : w' = []) : w = [] ∧ b.sticky = false := by
    obtain ⟨hw, hempty | hfree⟩ := hnil hw'
    · exact absurd hempty hne
    · exact ⟨hw, h.kept (.inr hfree) hw⟩
  refine ⟨w', rfl, h.tight, hw', ?_, fun _ hw' => (hloose hw').2, ?_, fun hw' _ => ?_⟩
  · intro u hu
    rcases List.mem_append.1 hu with hu | hu
    · exact h.spaces u hu
    · rw [List.mem_singleton.1 hu]
      exact hn
  · rintro hhungry ⟨u, hu, hpar⟩
    rcases List.mem_append.1 hu with hu | hu
    · have := h.broken hhungry ⟨u, hu, hpar⟩
      omega
    · rw [List.mem_singleton.1 hu] at hpar
      have := hbreak hpar
      rw [Node.raw] at this
      omega
  · obtain ⟨hw, hsticky⟩ := hloose hw'
    exact h.even hw (.inl hsticky)

/-- A line has just begun. -/
theorem Standing.line {lax f : Bool} {s w : Bytes} (hw : ink w = []) (us ns : List Node)
    (hus : ∀ u ∈ us, u.isSpace = true) :
    Standing lax f {} us (s ++ [Byte.newline]) w ns :=
  ⟨tight_append rfl rfl, hw, hus, fun _ _ => rfl, fun h => (by cases h),
    fun _ _ => even_append rfl (by decide)⟩

theorem nodesReflow_space (hn : n.isSpace = true) (hpieces : n.rawPieces = Bytes.linePieces n.raw)
    (hraw : ink n.raw = []) (hne : n.raw ≠ [])
    (hbreak : n.isParbreak = true → 2 ≤ n.raw.count Byte.newline) (hrest : c.rest = n.raw ++ d.rest)
    (hd : d.rest.head?.any isBlank = false) (ih : NodesReflow r keep d ns) :
    NodesReflow r keep c (n :: ns) := by
  refine ⟨@fun lax f g b us s w t hcalm hglue hstanding hflow => ?_,
    @fun lax g s x t hcalm hglue hs hx hc hflow => ?_⟩
  · rw [Node.rawPiecesAll_cons] at hflow
    obtain ⟨k, v, hhead, htail⟩ := hflow.split
    obtain ⟨w', rfl, hnext⟩ := hstanding.space hn hraw hne hbreak hhead
    obtain ⟨u, rfl, hu⟩ := ih.1 (Node.all_cons_iff.1 hcalm).2 (Node.hasGlue_cons hglue).1 hnext htail
    exact ⟨u, rfl, by simpa using hu⟩
  · rw [Node.rawPiecesAll_cons] at hflow
    obtain ⟨k, v, hhead, htail⟩ := hflow.split
    have hbreaks : BreaksLine n.raw := by
      rw [hrest] at hc
      obtain ⟨a, raw, hraw⟩ := List.exists_cons_of_ne_nil hne
      rw [hraw] at hc ⊢
      obtain ⟨y, hy | hy⟩ := hc
      · exact ⟨raw, .inl (by rw [(List.cons.inj hy).1])⟩
      · obtain ⟨rfl, htail⟩ := List.cons.inj hy
        cases raw with
        | nil =>
          rw [show d.rest = Byte.newline :: y from htail] at hd
          cases hd
        | cons a raw => exact ⟨raw, .inr (by rw [(List.cons.inj htail).1])⟩
    rw [hpieces] at hhead
    obtain ⟨line, w, rfl, hline, hsame, hw, -⟩ := hhead.lineEnd hs hx hraw hbreaks
    rw [← List.singleton_append, ← List.append_assoc] at htail
    obtain ⟨u, rfl, hu⟩ := ih.1 (Node.all_cons_iff.1 hcalm).2 (Node.hasGlue_cons hglue).1
      (.line hw [n] ns (by simpa using hn)) htail
    exact ⟨line, u, by simp, hline, hsame, hu⟩

/-- What follows the content of a comment ends its line. -/
theorem exists_line_of_comment {comment : Comment} (hshape : comment.Shaped d.rest)
    (hink : ink d.rest ≠ []) (ih : NodesReflow r keep d ns) {lax g : Bool} {s t : Bytes}
    (hcalm : All (Calm r keep lax) ns) (hglue : hasGlue ns = false) (hs : Tight s)
    (hflow : Reflow lax false (comment.suffix.linePieces ++ rawPiecesAll ns) (s ++ comment.content) g t) :
    ∃ line u, t = s ++ line ++ Byte.newline :: u ∧ Byte.newline ∉ line ∧
      line.trimEnd isLineBlank = comment.content.trimEnd isLineBlank ∧ Spells r keep (.nodes {} ns) u := by
  have hends : BreaksLine (comment.suffix ++ d.rest) := hshape.ends.resolve_left hink
  rcases hshape.breaks with hnil | hbreaks
  · rw [hnil] at hends hflow
    exact ih.2 hcalm hglue hs hshape.line hends hflow
  · obtain ⟨k, v, hsuffix, htail⟩ := hflow.split
    obtain ⟨line, w, rfl, hline, hsame, hw, -⟩ := hsuffix.lineEnd hs hshape.line hshape.suffix hbreaks
    rw [← List.singleton_append, ← List.append_assoc] at htail
    obtain ⟨u, rfl, hu⟩ := ih.1 hcalm hglue (.line hw [] ns (by simp)) htail
    exact ⟨line, u, by simp, hline, hsame, hu⟩

theorem rawPieces_of_comment? {comment : Comment} (hn : n.comment? = some comment) :
    n.rawPieces = comment.leading.linePieces ++
      (Bytes.linePieces (Byte.percent :: comment.content) ++ comment.suffix.linePieces) := by
  obtain ⟨span, hints, before, rfl⟩ := Node.exists_of_comment? hn
  simp [Node.rawPieces, Leaf.rawPieces]

theorem nodesReflow_comment {comment : Comment} (hn : n.comment? = some comment)
    (hshape : comment.Shaped d.rest) (hrest : c.rest = comment.raw ++ d.rest) (hink : ink d.rest ≠ [])
    (ih : NodesReflow r keep d ns) : NodesReflow r keep c (n :: ns) := by
  refine ⟨@fun lax f g b us s w t hcalm hglue hstanding hflow => ?_, fun lax g s x t _ _ _ _ hc => ?_⟩
  · rw [Node.rawPiecesAll_cons, rawPieces_of_comment? hn, List.append_assoc, List.append_assoc] at hflow
    obtain ⟨k, v, hleading, hflow⟩ := hflow.split
    obtain ⟨w', rfl, hw', -⟩ := hleading.white hstanding.tight hstanding.white
      (by simpa using hshape.leading)
    obtain ⟨k, v, hcontent, hflow⟩ := hflow.split
    obtain ⟨rfl, rfl⟩ := hcontent.text (fun h => by cases h) fun hmem =>
      hshape.line ((List.mem_cons.1 hmem).resolve_left (by decide))
    rw [← List.singleton_append, ← List.append_assoc] at hflow
    obtain ⟨line, u, rfl, hline, hsame, hu⟩ := exists_line_of_comment hshape hink ih
      (Node.all_cons_iff.1 hcalm).2 (Node.hasGlue_cons hglue).1 (tight_append rfl rfl) hflow
    exact ⟨w' ++ Byte.percent :: (line ++ Byte.newline :: u), by simp,
      hu.remarkLine hstanding.spaces hn hw' hline hsame⟩
  · rw [hrest] at hc
    exact absurd hc (hshape.not_breaksLine _)

theorem ink_pads {pads : Bytes} (h : ∀ b ∈ pads, isPad b = true) : ink pads = [] :=
  Bytes.ink_eq_nil_iff.2 fun b hb => Bytes.isBlank_of_isPad (h b hb)

/-- A node has just been written. -/
theorem Standing.after {lax g : Bool} {s pads : Bytes} (hpads : ∀ b ∈ pads, isPad b = true)
    (hplain : lax = false ∨ n.isLineEnd r = false → pads = [] ∧ (lax = true → g = false)) (hs : Tight s)
    (heven : (n.before r).sticky = false ∨ Node.leadsToControl ns = true → Even s) :
    Standing lax g (n.before r) [] s pads ns := by
  refine ⟨hs, ink_pads hpads, by simp, fun h _ => ?_, fun _ h => by simp at h, fun _ => heven⟩
  obtain ⟨hlax, hg⟩ := h.resolve_left (by simp)
  cases hline : n.isLineEnd r with
  | true => simp [Node.before, hline]
  | false =>
    rw [(hplain (.inr hline)).2 hlax] at hg
    cases hg

theorem nodesReflow_code (hn : n.Reflows r keep) (hsolid : n.isSpace = false) (hcode : n.comment? = none)
    (hc : ¬ BreaksLine c.rest) (ih : NodesReflow r keep d ns) : NodesReflow r keep c (n :: ns) := by
  refine ⟨@fun lax f g b us s w t hcalm hglue hstanding hflow => ?_,
    fun lax g s x t _ _ _ _ hbreaks => absurd hbreaks hc⟩
  rw [Node.rawPiecesAll_cons] at hflow
  obtain ⟨k, v, hhead, htail⟩ := hflow.split
  obtain ⟨hcalm, hcalms⟩ := Node.all_cons_iff.1 hcalm
  have heven (h : Node.leadsToControl (n :: ns) = true) : Even (s ++ w) :=
    even_of_white hstanding.white fun hw => hstanding.even hw (.inr h)
  obtain ⟨u, pads, rfl, hpads, hplain, hspells, htight, hbalances⟩ := hn hcalm
    (fun h => heven (Node.leadsToControl_cons.2 (.inl h))) hhead
  obtain ⟨u', rfl, hu'⟩ := ih.1 hcalms (Node.hasGlue_cons hglue).1
    (Standing.after hpads hplain htight (hbalances.even hglue heven)) htail
  refine ⟨w ++ u ++ u', by simp, .item ?_ hsolid hcode hspells hu'⟩
  exact ⟨hstanding.spaces, hstanding.white, fun hus => hstanding.kept (.inl hus),
    fun hhungry _ => hstanding.broken hhungry⟩

end

/-! ## nodes -/

section

open Node (NodesReflow ArgsReflow All Each Calm hasGlue rawPiecesAll rawPieces)

variable {r : Registry} {keep : Bool} {lax f g : Bool} {s t : Bytes} {span : Span} {hints : Hints}
  {args content : List Node}

theorem reflows_text {x : Bytes} (hx : Plain x) : (Node.leaf span hints (.text x)).Reflows r keep := by
  intro lax f g s t _ _ hflow
  have hsign := Sign.of_plain hx
  obtain ⟨rfl, rfl⟩ := hflow.text hsign.solid hsign.line
  exact ⟨x, [], by simp, by simp, fun _ => ⟨rfl, fun _ => rfl⟩, .text, hsign.tight s, fun _ _ => hsign.even s⟩

theorem reflows_verb {name marker x : Bytes} (hlast : ∃ b, marker.getLast? = some b ∧ isBlank b = false) :
    (Node.leaf span hints (.verb Parse.escape name marker x)).Reflows r keep := by
  intro lax f g s t _ _ hflow
  obtain ⟨rfl, rfl⟩ := (hflow.solid fun h => by cases h).nil
  obtain ⟨b, hb, hblank⟩ := hlast
  have hend : (Parse.escape ++ name ++ marker ++ x ++ marker).getLast? = some b := by
    rw [List.getLast?_append, hb]
    rfl
  refine ⟨_, [], by simp, by simp, fun _ => ⟨rfl, fun _ => rfl⟩, .verb,
    tight_append hend (isPad_eq_false hblank), fun hback _ => even_append hend ?_⟩
  simpa [Node.endsInBackslash, hb] using hback

/-- A command whose name stays on its line. -/
theorem reflow_command {escape name : Bytes} (hargs : ArgsReflow r keep args)
    (hcalm : Each (Calm r keep lax) (.branch span hints (.command escape name) args []))
    (hsolid : ink (escape ++ name) ≠ []) (hline : Byte.newline ∉ escape ++ name)
    (htight : Tight (s ++ (escape ++ name)))
    (heven : Node.leadsToControl args = true → Even (s ++ (escape ++ name)))
    (hflow : Reflow lax f (rawPieces (.branch span hints (.command escape name) args [])) s g t) :
    ∃ u, t = s ++ u ∧ Spells r keep (.node (.branch span hints (.command escape name) args [])) u ∧
      (lax = true → g = false) ∧ Tight (s ++ u) ∧
      ((args.all Node.isBackslashes = true → Even (s ++ (escape ++ name))) → Even (s ++ u)) := by
  simp only [rawPieces, Shape.openingPieces, Shape.closingPieces, rawPiecesAll, List.append_nil] at hflow
  obtain ⟨k, v, hhead, htail⟩ := hflow.split
  obtain ⟨rfl, rfl⟩ := hhead.text hsolid hline
  obtain ⟨u, rfl, hspells, hflag, htight, heven⟩ :=
    hargs (fun _ => rfl) (Node.each_branch_iff.1 hcalm).2.1 htight heven htail
  rw [List.append_assoc] at htight heven
  exact ⟨escape ++ name ++ u, by simp, .command hspells, hflag, htight, heven⟩

theorem reflows_script {char : UInt8} (hchar : char = Byte.caret ∨ char = Byte.underscore)
    (hargs : ArgsReflow r keep args) :
    (Node.branch span hints (.command [] [char]) args []).Reflows r keep := by
  intro lax f g s t hcalm _ hflow
  have hsign : Sign [char] := .of_plain (.singleton (by rcases hchar with rfl | rfl <;> rfl)
    (by rcases hchar with rfl | rfl <;> decide))
  obtain ⟨u, rfl, hspells, hflag, htight, heven⟩ := reflow_command hargs hcalm hsign.solid hsign.line
    (hsign.tight s) (fun _ => hsign.even s) hflow
  exact ⟨u, [], by simp, by simp, fun _ => ⟨rfl, hflag⟩, hspells, htight, fun _ _ => heven fun _ => hsign.even s⟩

/-- A command that is named by a line break. -/
theorem reflows_lineEnd (hargs : ArgsReflow r keep args)
    (hnone : Parse.commandArgs r [Byte.newline] = [] → args = []) :
    (Node.branch span hints (.command Parse.escape [Byte.newline]) args []).Reflows r keep := by
  intro lax f g s t hcalm _ hflow
  have hpieces : Bytes.linePieces (Parse.escape ++ [Byte.newline]) =
      [[Byte.backslash], [Byte.newline]] := rfl
  simp only [rawPieces, Shape.openingPieces, Shape.closingPieces, rawPiecesAll, List.append_nil, hpieces,
    List.cons_append, List.nil_append] at hflow
  have htight : Tight (s ++ Parse.escape ++ [Byte.newline]) := tight_append rfl rfl
  have heven : Even (s ++ Parse.escape ++ [Byte.newline]) := even_append rfl (by decide)
  cases lax with
  | false =>
    cases hflow.solid (by decide) with
    | wrap free => cases free
    | keep rest =>
      obtain ⟨u, rfl, hspells, hflag, htight, hlast⟩ := hargs (fun h => by cases h)
        (Node.each_branch_iff.1 hcalm).2.1 htight (fun _ => heven) rest
      refine ⟨Parse.escape ++ [Byte.newline] ++ u, [], by simp [Parse.escape], by simp,
        fun _ => ⟨rfl, fun h => by cases h⟩, .command hspells, ?_, fun _ _ => ?_⟩
      · simpa using htight
      · simpa using hlast fun _ => heven
  | true =>
    have hempty : Parse.commandArgs r [Byte.newline] = [] := by
      simpa [Node.isLoose] using (Node.each_branch_iff.1 hcalm).1.1 rfl
    have hline : (Node.branch span hints (.command Parse.escape [Byte.newline]) args []).isLineEnd r =
        true := by
      simp [Node.isLineEnd, hempty, Parse.escape]
    cases hnone hempty
    have hspells : Spells r keep (.node (.branch span hints (.command Parse.escape [Byte.newline]) [] []))
        (Parse.escape ++ [Byte.newline] ++ []) := .command .noArgs
    rw [List.append_nil] at hspells
    rw [List.append_assoc] at htight heven
    cases hflow.solid (by decide) with
    | keep rest =>
      refine ⟨_, [], ?_, by simp, fun h => absurd h (by simp [hline]), hspells, htight,
        fun _ _ => heven⟩
      rw [(rest.nil).2]
      simp [Parse.escape]
    | @wrap _ _ _ indent _ _ free rest =>
      refine ⟨_, Bytes.spaces indent, ?_, fun b hb => ?_, fun h => absurd h (by simp [hline]),
        hspells, htight, fun _ _ => heven⟩
      · rw [(rest.nil).2, Layout.broken_tight (tight_append rfl rfl)]
        simp [Parse.escape]
      · rw [List.eq_of_mem_replicate hb]
        rfl

theorem reflows_command {name : Bytes} (hname : Named name) (hargs : ArgsReflow r keep args)
    (hnone : Parse.commandArgs r name = [] → args = []) :
    (Node.branch span hints (.command Parse.escape name) args []).Reflows r keep := by
  intro lax f g s t hcalm hcontrol hflow
  by_cases hline : name = [Byte.newline]
  · subst hline
    exact reflows_lineEnd hargs hnone hcalm hcontrol hflow
  obtain ⟨htight, heven, hslashes⟩ := hname.balances hcontrol
  have hsolid : ink (Parse.escape ++ name) ≠ [] := fun h => by cases h
  have hnewline : Byte.newline ∉ Parse.escape ++ name := fun hmem =>
    hname.newline hline ((List.mem_append.1 hmem).resolve_left (by decide))
  obtain ⟨u, rfl, hspells, hflag, htight, hlast⟩ := reflow_command hargs hcalm hsolid hnewline htight heven
    hflow
  exact ⟨u, [], by simp, by simp, fun _ => ⟨rfl, hflag⟩, hspells, htight, fun _ hs => hlast (hslashes hs)⟩

/-- A sequence in front of what closes it. -/
theorem reflow_enclosed {c : Cursor} {b : Before} {closing : Bytes} (hcontent : NodesReflow r keep c content)
    (hcalm : All (Calm r keep lax) content) (hglue : hasGlue content = false) (htight : Tight s)
    (heven : Even s) (hflag : lax = true → f = false) (hclosing : Sign closing)
    (hflow : Reflow lax f (rawPiecesAll content ++ closing.linePieces) s g t) :
    ∃ u, t = s ++ u ++ closing ∧ Spells r keep (.nodes b content) u ∧ g = false ∧
      (Node.rawAll content ≠ [] → u ≠ []) := by
  obtain ⟨k, v, hbody, hend⟩ := hflow.split
  have hstanding : Standing lax f b [] s [] content := by
    refine ⟨htight, rfl, by simp, fun h _ => ?_, fun _ h => by simp at h, fun _ _ => heven⟩
    obtain ⟨hlax, hf⟩ := h.resolve_left (by simp)
    rw [hflag hlax] at hf
    cases hf
  obtain ⟨u, rfl, hspells⟩ := hcontent.1 hcalm hglue hstanding (by rwa [List.append_nil])
  obtain ⟨rfl, rfl⟩ := hend.text hclosing.solid hclosing.line
  exact ⟨u, rfl, hspells, rfl, hbody.ne_nil htight hflag⟩

theorem argsReflow_nil : ArgsReflow r keep [] := by
  intro lax f g s t hflag _ htight _ hflow
  obtain ⟨rfl, rfl⟩ := hflow.nil
  exact ⟨[], by simp, .noArgs, hflag, by simpa using htight, by simp⟩

/-- What stands between an opening and a closing. -/
theorem reflows_container {c : Cursor} {shape : Shape} (kind : shape.isContainer = true)
    (hopen : shape.openingPieces = shape.opening.linePieces)
    (hclose : shape.closingPieces = shape.closing.linePieces) (hopening : Sign shape.opening)
    (hclosing : Sign shape.closing) (hargs : ArgsReflow r keep args) (hcontent : NodesReflow r keep c content)
    (hfull : shape.opening = [Byte.dollar] →
      Node.isEmptyFormula (.branch span hints shape args content) = false → Node.rawAll content ≠ []) :
    (Node.branch span hints shape args content).Reflows r keep := by
  intro lax f g s t hcalm _ hflow
  obtain ⟨⟨-, hglue, hempty⟩, hcalms, hcalm⟩ := Node.each_branch_iff.1 hcalm
  rw [rawPieces, hopen, hclose, List.append_assoc, List.append_assoc] at hflow
  obtain ⟨k, v, hhead, hflow⟩ := hflow.split
  obtain ⟨rfl, rfl⟩ := hhead.text hopening.solid hopening.line
  obtain ⟨k, v, htaken, hflow⟩ := hflow.split
  obtain ⟨u₁, rfl, hspells, hflag, htight, heven⟩ :=
    hargs (fun _ => rfl) hcalms (hopening.tight s) (fun _ => hopening.even s) htaken
  obtain ⟨u₂, rfl, hinside, rfl, hne⟩ := reflow_enclosed (b := shape.before r args) hcontent hcalm
    (by simpa [Node.isUnglued] using hglue) htight (heven fun _ => hopening.even s) hflag hclosing hflow
  refine ⟨shape.opening ++ u₁ ++ u₂ ++ shape.closing, [], by simp, by simp,
    fun _ => ⟨rfl, fun _ => rfl⟩, .container kind hspells hinside fun h => hne (hfull h hempty), ?_,
    fun _ _ => ?_⟩
  · rw [← List.append_assoc]
    exact hclosing.tight _
  · rw [← List.append_assoc]
    exact hclosing.even _

theorem reflows_verbatim {name x : Bytes} (hname : Byte.newline ∉ name) (hargs : ArgsReflow r keep args) :
    (Node.branch span hints (.verbatim name x) args []).Reflows r keep := by
  intro lax f g s t hcalm _ hflow
  obtain ⟨⟨hloose, -⟩, hcalms, -⟩ := Node.each_branch_iff.1 hcalm
  have hopening := sign_beginMarker hname
  have hclosing := sign_endMarker hname
  simp only [rawPieces, Shape.openingPieces, Shape.closingPieces, rawPiecesAll, List.append_nil,
    List.append_assoc] at hflow
  obtain ⟨k, v, hhead, hflow⟩ := hflow.split
  obtain ⟨rfl, rfl⟩ := hhead.text hopening.solid hopening.line
  obtain ⟨k, v, htaken, hflow⟩ := hflow.split
  obtain ⟨u₁, rfl, hspells, hflag, htight, -⟩ :=
    hargs (fun _ => rfl) hcalms (hopening.tight s) (fun _ => hopening.even s) htaken
  -- the text stays, unless it is a line break
  obtain ⟨u₂, k', hkept, hend⟩ : ∃ u₂ k', (u₂ = x ∨ keep = false ∧ ink u₂ = []) ∧
      Reflow lax k' (Cursor.endMarker name).linePieces (s ++ Cursor.beginMarker name ++ u₁ ++ u₂) g t := by
    cases hflow with
    | keep rest => exact ⟨x, _, .inl rfl, rest⟩
    | @wrap _ _ _ indent _ _ free rest =>
      rw [Layout.broken_tight htight] at rest
      refine ⟨_, _, .inr ⟨by simpa [Node.isLoose] using hloose free, ?_⟩, rest⟩
      rw [Bytes.ink_cons_of_blank (by decide), Bytes.ink_spaces]
    | drop free => cases hflag free
  obtain ⟨rfl, rfl⟩ := hend.text hclosing.solid hclosing.line
  refine ⟨Cursor.beginMarker name ++ u₁ ++ u₂ ++ Cursor.endMarker name, [], by simp, by simp,
    fun _ => ⟨rfl, fun _ => rfl⟩, .verbatim hspells hkept, ?_, fun _ _ => ?_⟩
  · rw [← List.append_assoc]
    exact hclosing.tight _
  · rw [← List.append_assoc]
    exact hclosing.even _

/-- The space in front of an argument stays if there is any. -/
theorem reflow_space {space : Bytes} (hflow : Reflow lax f space.linePieces s g t) (hs : Tight s)
    (hspace : ink space = []) (hflag : lax = true → f = false) :
    ∃ w, t = s ++ w ∧ ink w = [] ∧ w.count Byte.newline = space.count Byte.newline ∧
      (w = [] ↔ space = []) := by
  by_cases hempty : space = []
  · subst hempty
    obtain ⟨-, rfl⟩ := hflow.nil
    exact ⟨[], by simp, rfl, rfl, by simp⟩
  · rw [← List.append_nil s] at hflow
    obtain ⟨w, rfl, hw, hcount, hnil, -⟩ := hflow.white hs rfl (by simpa using hspace)
    refine ⟨w, rfl, hw, by simpa using hcount, fun h => ?_, fun h => absurd h hempty⟩
    rcases (hnil h).2 with hempty' | ⟨hlax, hf⟩
    · simpa using hempty'
    · rw [hflag hlax] at hf
      cases hf

/-- A star, a character or a command as an argument. -/
theorem argsReflow_bare {space : Bytes} {n : Node} {as : List Node} (hspace : ink space = [])
    (hshort : space.count Byte.newline ≤ 1) (hn : n.Reflows r keep) (hback : n.endsInBackslash = false)
    (hrest : ArgsReflow r keep as) :
    ArgsReflow r keep (.branch span hints (.argument space [] []) [] [n] :: as) := by
  intro lax f g s t hflag hcalm htight heven hflow
  obtain ⟨hcalm, hcalms⟩ := Node.all_cons_iff.1 hcalm
  obtain ⟨⟨hloose, -⟩, -, hcalm⟩ := Node.each_branch_iff.1 hcalm
  have hpieces : rawPiecesAll (.branch span hints (.argument space [] []) [] [n] :: as) =
      space.linePieces ++ (n.rawPieces ++ rawPiecesAll as) := by
    simp [rawPiecesAll, rawPieces, Shape.openingPieces, Shape.closingPieces, Bytes.linePieces]
  rw [hpieces] at hflow
  obtain ⟨k, v, hhead, hflow⟩ := hflow.split
  obtain ⟨w, rfl, hw, hcount, hnil⟩ := reflow_space hhead htight hspace hflag
  obtain ⟨k, v, hnode, hflow⟩ := hflow.split
  obtain ⟨u, pads, rfl, -, hplain, hspells, htight, hbalances⟩ := hn (Node.all_cons_iff.1 hcalm).1
    (Node.even_bare hw hnil.1 fun h => heven (Node.leadsToControl_cons.2 (.inl h))) hnode
  have hlast : ((Node.branch span hints (.argument space [] []) [] [n]).isBackslashes = true → Even s) → Even _ :=
    hbalances.bare hw hnil.1 hback
  have hline : lax = false ∨ n.isLineEnd r = false := by
    cases lax with
    | false => exact .inl rfl
    | true =>
      have hname : n.controlName? ≠ some [Byte.newline] := by simpa [Node.isLoose] using hloose rfl
      exact .inr (by simp [Node.isLineEnd, hname])
  obtain ⟨rfl, hflag⟩ := hplain hline
  rw [List.append_nil] at hflow
  obtain ⟨u', rfl, hspells', hflag, htight, hend⟩ := hrest hflag hcalms htight
    (Node.even_of_leads hlast heven) hflow
  refine ⟨w ++ u ++ u', by simp, ?_, hflag, by simpa using htight, fun hs => ?_⟩
  · exact .bare hw (hcount ▸ hshort) hnil.1 (fun h _ => hnil.2 h) hspells hspells'
  · simpa using hend (Node.even_of_all hlast hs)

/-- An argument in brackets or braces. -/
theorem argsReflow_delimited {c : Cursor} {space opening closing : Bytes} {as : List Node}
    (hspace : ink space = []) (hshort : space.count Byte.newline ≤ 1) (hopening : Sign opening)
    (hclosing : Sign closing) (hbracket : opening = [Byte.openBracket] → space = [])
    (hcontent : NodesReflow r keep c content) (hrest : ArgsReflow r keep as) :
    ArgsReflow r keep (.branch span hints (.argument space opening closing) [] content :: as) := by
  intro lax f g s t hflag hcalm htight _ hflow
  obtain ⟨hcalm, hcalms⟩ := Node.all_cons_iff.1 hcalm
  obtain ⟨⟨-, hglue, -⟩, -, hcalm⟩ := Node.each_branch_iff.1 hcalm
  have hpieces : rawPiecesAll (.branch span hints (.argument space opening closing) [] content :: as) =
      space.linePieces ++ (opening.linePieces ++ ((rawPiecesAll content ++ closing.linePieces) ++
        rawPiecesAll as)) := by
    simp [rawPiecesAll, rawPieces, Shape.openingPieces, Shape.closingPieces]
  rw [hpieces] at hflow
  obtain ⟨k, v, hhead, hflow⟩ := hflow.split
  obtain ⟨w, rfl, hw, hcount, hnil⟩ := reflow_space hhead htight hspace hflag
  obtain ⟨k, v, hopen, hflow⟩ := hflow.split
  obtain ⟨rfl, rfl⟩ := hopen.text hopening.solid hopening.line
  obtain ⟨k, v, hbody, hflow⟩ := hflow.split
  obtain ⟨u, rfl, hinside, rfl, -⟩ := reflow_enclosed (b := {}) hcontent hcalm
    (by simpa [Node.isUnglued] using hglue) (hopening.tight _) (hopening.even _) (fun _ => rfl) hclosing
    hbody
  obtain ⟨u', rfl, hspells', hflag, htight, heven⟩ := hrest (fun _ => rfl) hcalms (hclosing.tight _)
    (fun _ => hclosing.even _) hflow
  refine ⟨w ++ opening ++ u ++ closing ++ u', by simp, ?_, hflag, by simpa using htight,
    fun _ => by simpa using heven fun _ => hclosing.even _⟩
  refine .delimited (fun h => ?_) hw (hcount ▸ hshort) (fun h => hnil.2 (hbracket h)) hinside hspells'
  exact hopening.solid (by rw [h]; rfl)

end

/-! ## everything that can be read -/

namespace Parse

open Node (annotateAll)

variable {r : Registry} {keep : Bool} {mode : Mode} {closer closer' : Closer} {c d e : Cursor} {t : Token}
  {n : Node} {body tail : Sequence} {args : List Node} {kinds : List ArgKind}

theorem not_breaksLine_of_solid (h : c.rest.head?.any isBlank = false) : ¬ BreaksLine c.rest := by
  rintro ⟨y, hy | hy⟩ <;> rw [hy] at h <;> cases h

theorem reflows_stop (token : c.token = .ok (t, d))
    (closed : closer.pass t.kind = none ∨ t.kind = .endOfInput) :
    (Judgement.sequence mode closer c ⟨[], t, c, d⟩).Reflows r keep := by
  intro hopen
  refine nodesReflow_nil (not_breaksLine_of_solid ?_)
  have hpass := closed.resolve_right fun hend => by simp [Sequence.isOpen, hend] at hopen
  obtain ⟨b, s, hraw, hb⟩ := (Closer.ends_of_pass_eq_none hpass).solid
  rw [(Cursor.token_reads token).1.text, hraw]
  exact hb

/-- White space that was read. -/
structure WhiteAt (c : Cursor) (n : Node) (e : Cursor) : Prop where
  pieces : n.rawPieces = Bytes.linePieces n.raw
  white : ink n.raw = []
  ne_nil : n.raw ≠ []
  broken : n.isParbreak = true → 2 ≤ n.raw.count Byte.newline
  rest : c.rest = n.raw ++ e.rest
  solid : e.rest.head?.any isBlank = false

theorem whiteAt_of_isSpace (token : c.token = .ok (t, d)) (head : Derives r (.item mode c n e))
    (space : n.isSpace = true) : WhiteAt c n e := by
  obtain ⟨hpend, -, -⟩ := pending_of_isSpace token head space
  have hrest := head.moves.1.text
  have hne := head.raw_ne_nil
  cases hpend with
  | one _ white solid _ =>
    cases head with
    | @leaf _ _ t' _ l token' plain =>
      obtain ⟨raw, ⟨hk, rfl⟩ | ⟨hk, rfl⟩⟩ := kind_of_plainLeaf?_space plain space
      · refine ⟨?_, white, hne, fun h => (by cases h), hrest, solid⟩
        simp [Node.raw_leaf, Leaf.raw, Leaf.rawPieces, Node.rawPieces]
      · have hscan := Cursor.scan?_of_token token'
        rw [hk] at hscan
        refine ⟨?_, white, hne, fun _ => ?_, hrest, solid⟩
        · simp [Node.raw_leaf, Leaf.raw, Leaf.rawPieces, Node.rawPieces]
        · simpa [Node.raw_leaf, Leaf.raw, Leaf.rawPieces] using Token.count_of_parbreak hscan
    | script | group | formula | dollar | emptyDollars | verbatim | verb | command => cases space
    | environment =>
      unfold environmentShape at space
      split at space <;> cases space

theorem WhiteAt.annotate (h : WhiteAt c n e) (r : Registry) : WhiteAt c (n.annotate r) e :=
  ⟨by simpa [Node.rawPieces_annotate] using h.pieces, by simpa using h.white, by simpa using h.ne_nil,
    by simpa using h.broken, by simpa using h.rest, h.solid⟩

theorem reflows_space (token : c.token = .ok (t, d)) (head : Derives r (.item mode c n e))
    (space : n.isSpace = true) (ih : (Judgement.sequence mode closer e tail).Reflows r keep) :
    (Judgement.sequence mode closer' c { tail with nodes := link n tail.nodes }).Reflows r keep := by
  intro hopen
  rw [link_of_isSpace space, annotateAll]
  have hwhite := (whiteAt_of_isSpace token head space).annotate r
  exact nodesReflow_space (by simpa using space) hwhite.pieces hwhite.white hwhite.ne_nil hwhite.broken
    hwhite.rest hwhite.solid (ih hopen)

theorem annotateAll_link_comment {comment : Comment} (hn : n.comment? = some comment) (ns : List Node) :
    ∃ m, annotateAll r (link n ns) = m :: annotateAll r ns ∧ m.comment? = some comment := by
  obtain ⟨span, hints, before, rfl⟩ := Node.exists_of_comment? hn
  exact ⟨_, rfl, rfl⟩

theorem reflows_comment {comment : Comment} (token : c.token = .ok (t, d))
    (head : Derives r (.item mode c n e)) (hcomment : n.comment? = some comment)
    (rest : Derives r (.sequence mode closer e tail))
    (ih : (Judgement.sequence mode closer e tail).Reflows r keep) :
    (Judgement.sequence mode closer' c { tail with nodes := link n tail.nodes }).Reflows r keep := by
  intro hopen
  obtain ⟨m, hlink, hm⟩ := annotateAll_link_comment (r := r) hcomment tail.nodes
  rw [hlink]
  obtain ⟨kind, rfl⟩ := kind_of_comment token head hcomment
  have hrest : c.rest = comment.raw ++ d.rest := by
    rw [(Cursor.token_reads token).1.text, kind]
    rfl
  exact nodesReflow_comment hm (Cursor.comment_shaped token kind) hrest (rest.ink_rest hopen) (ih hopen)

/-- White space begins white space or a comment. -/
theorem Derives.head_solid (h : Derives r (.item mode c n e)) (hsolid : n.isSpace = false)
    (hcode : n.comment? = none) : c.rest.head?.any isBlank = false := by
  refine Bool.eq_false_iff.2 fun hblank => ?_
  have hkind {t : Token} {d : Cursor} (token : c.token = .ok (t, d)) :
      (∃ comment, t.kind = .comment comment) ∨ (∃ raw, t.kind = .parbreak raw) ∨
        ∃ raw, t.kind = .space raw := by
    have hscan := Cursor.scan?_of_token token
    cases hrest : c.rest with
    | nil =>
      rw [hrest] at hblank
      cases hblank
    | cons b s =>
      rw [hrest] at hblank hscan
      rw [show b :: s = [b] ++ s from rfl, Cursor.scan?_blank (by simp)
        (Bytes.ink_eq_nil_iff.2 (by simpa using hblank))] at hscan
      rw [← Option.some.inj hscan]
      exact (Token.scanBlank_cases _ _).imp id (Or.imp (fun h => ⟨_, h.2⟩) fun h => ⟨_, h.2⟩)
  cases h with
  | leaf token plain =>
    rcases hkind token with ⟨_, hk⟩ | ⟨_, hk⟩ | ⟨_, hk⟩ <;>
    · rw [hk] at plain
      cases plain
      first | (cases hsolid; done) | cases hcode
  | script token kind | group token kind | dollar token kind | emptyDollars token kind
  | environment token kind | verbatim token kind | verb token kind | command token kind =>
    rcases hkind token with ⟨_, hk⟩ | ⟨_, hk⟩ | ⟨_, hk⟩ <;> cases hk.symm.trans kind
  | formula token kind =>
    rcases hkind token with ⟨_, hk⟩ | ⟨_, hk⟩ | ⟨_, hk⟩ <;>
    · rw [hk] at kind
      cases kind

theorem reflows_code (head : Derives r (.item mode c n e)) (hsolid : n.isSpace = false)
    (hcode : n.comment? = none) (ihHead : (Judgement.item mode c n e).Reflows r keep)
    (ih : (Judgement.sequence mode closer e tail).Reflows r keep) :
    (Judgement.sequence mode closer' c { tail with nodes := link n tail.nodes }).Reflows r keep := by
  intro hopen
  rw [link_of_code hcode, annotateAll]
  have hn := ihHead hsolid hcode
  exact nodesReflow_code hn (by simpa using hsolid) (by simpa using hcode)
    (not_breaksLine_of_solid (head.head_solid hsolid hcode)) (ih hopen)

/-! ## the rules -/

theorem sign_byte {b : UInt8} (hb : isBlank b = false) (hcode : b ≠ Byte.backslash) : Sign [b] :=
  .of_plain (.singleton hb hcode)

/-- What opens and closes a formula. -/
theorem sign_formula {k : Token.Kind} {shape : Shape} (h : formula? k = some (closer, shape)) :
    shape.isContainer = true ∧ shape.openingPieces = shape.opening.linePieces ∧
      shape.closingPieces = shape.closing.linePieces ∧ Sign shape.opening ∧ Sign shape.closing ∧
      shape.opening ≠ [Byte.dollar] := by
  rcases formula?_cases h with ⟨-, -, rfl⟩ | ⟨-, -, rfl⟩ | ⟨-, -, rfl⟩ <;>
    exact ⟨rfl, rfl, rfl, (sign_byte (by decide) (by decide)).cons (by decide),
      (sign_byte (by decide) (by decide)).cons (by decide), by decide⟩

/-- Something was read for a sequence that is not empty. -/
theorem Derives.rawAll_ne_nil (h : Derives r (.sequence mode closer c body)) (hne : body.nodes ≠ []) :
    Node.rawAll body.nodes ≠ [] := by
  cases h with
  | stop => exact absurd rfl hne
  | next token pass more head rest =>
    rw [Node.rawAll_link]
    exact fun h => head.raw_ne_nil (List.append_eq_nil_iff.1 h).1

theorem reflows_dollar {span : Span} {hints : Hints} (content : Derives r (.sequence .math .dollar d body))
    (closed : body.isOpen = false) (ih : (Judgement.sequence .math .dollar d body).Reflows r keep) :
    (Node.branch span hints (.inlineMath [Byte.dollar] [Byte.dollar]) []
      (annotateAll r body.nodes)).Reflows r keep := by
  have hsign : Sign [Byte.dollar] := sign_byte (by decide) (by decide)
  refine reflows_container rfl rfl rfl hsign hsign argsReflow_nil (ih closed) fun _ hempty => ?_
  rw [Node.rawAll_annotateAll]
  refine content.rawAll_ne_nil fun hnil => ?_
  rw [hnil] at hempty
  cases hempty

theorem count_skipSpace (c : Cursor) : c.skipSpace.1.count Byte.newline ≤ 1 := by
  unfold Cursor.skipSpace
  dsimp only
  split
  · exact Nat.zero_le 1
  · next h => exact Nat.lt_succ_iff.1 (Nat.lt_of_not_le h)

/-- **What can become of the raw text of a parsed tree is a spelling of the tree.** -/
theorem Derives.reflows {j : Judgement} (h : Derives r j) : j.Reflows r keep := by
  have hbrace : Sign [Byte.openBrace] ∧ Sign [Byte.closeBrace] :=
    ⟨sign_byte (by decide) (by decide), sign_byte (by decide) (by decide)⟩
  have hbracket : Sign [Byte.openBracket] ∧ Sign [Byte.closeBracket] :=
    ⟨sign_byte (by decide) (by decide), sign_byte (by decide) (by decide)⟩
  induction h with
  | stop token closed => exact reflows_stop token closed
  | @next mode closer later c t d n e tail token pass more head rest ihHead ihRest =>
    cases hspace : n.isSpace with
    | true => exact reflows_space token head hspace ihRest
    | false =>
      cases hcomment : n.comment? with
      | none => exact reflows_code head hspace hcomment ihHead ihRest
      | some comment => exact reflows_comment token head hcomment rest ihRest
  | @leaf _ _ _ _ l token plain =>
    intro hsolid hcode
    obtain ⟨content, rfl⟩ := text_of_plainLeaf? plain hsolid hcode
    exact reflows_text (plain_of_leaf token plain)
  | script token kind sign taken ih => exact fun _ _ => reflows_script sign ih
  | group token kind content closed ih =>
    exact fun _ _ => reflows_container rfl rfl rfl hbrace.1 hbrace.2 argsReflow_nil (ih closed)
      fun h => (by cases h)
  | formula token kind content closed ih =>
    obtain ⟨hshape, hopen, hclose, hopening, hclosing, hne⟩ := sign_formula kind
    exact fun _ _ => reflows_container hshape hopen hclose hopening hclosing argsReflow_nil (ih closed)
      fun h => absurd h hne
  | dollar token kind content closed half ih => exact fun _ _ => reflows_dollar content closed ih
  | emptyDollars token kind =>
    intro _ _ lax f g s t hcalm
    cases hcalm.self.2.2
  | @environment _ _ _ _ name _ _ _ _ _ token kind opening nodes taken content closed closing ihArgs ihBody =>
    intro _ _
    have hname := Cursor.newline_not_mem_environmentName opening
    have hbegin := sign_beginMarker hname
    have hend := sign_endMarker hname
    unfold environmentShape
    split
    · exact reflows_container rfl rfl rfl hbegin hend ihArgs (ihBody closed) fun h => by
        exact absurd h (fun h => by cases h)
    · exact reflows_container rfl rfl rfl hbegin hend ihArgs (ihBody closed) fun h => by
        exact absurd h (fun h => by cases h)
  | verbatim token kind opening raw taken content ih =>
    exact fun _ _ => reflows_verbatim (Cursor.newline_not_mem_environmentName opening) ih
  | verb token kind known free starred star_eq content =>
    exact fun _ _ => reflows_verb (Cursor.last_delimited content)
  | command token kind known free taken ih =>
    refine fun _ _ => reflows_command (named_of_token token kind) ih fun hnone => ?_
    rw [hnone] at taken
    cases taken
    rfl
  | done => exact argsReflow_nil
  | absent missing others ih => exact ih
  | star sign others ih =>
    exact argsReflow_bare rfl (by decide) (reflows_text (.singleton (by decide) (by decide))) rfl ih
  | optional sign content closed others ihBody ih =>
    exact argsReflow_delimited rfl (by decide) hbracket.1 hbracket.2 (fun _ => rfl) (ihBody closed) ih
  | @braced _ _ c _ _ _ sign content closed others ihBody ih =>
    exact argsReflow_delimited (Cursor.ink_skipSpace c) (count_skipSpace c) hbrace.1 hbrace.2
      (fun h => by cases h) (ihBody closed) ih
  | @bareCommand _ _ c _ _ _ _ _ token kind known free others ih =>
    exact argsReflow_bare (Cursor.ink_skipSpace c) (count_skipSpace c)
      (reflows_command (named_of_token token kind) argsReflow_nil fun _ => rfl) rfl ih
  | @bareCharacter _ _ c _ _ _ _ _ sign inert content others ih =>
    exact argsReflow_bare (Cursor.ink_skipSpace c) (count_skipSpace c)
      (reflows_text (plain_of_character sign inert content)) rfl ih

end Parse

end TexTidy
