import Mathlib.Data.List.DropRight
import TexTidy.Proofs.Reflow

/-!
# TexTidy.Proofs.Flowing

The layout of a tree is a spelling of it. A paragraph writes content and separators by turns, so what is
known while it is written is what stands before the next content: how much white space is there already,
which separator waits, and for which nodes.
-/

namespace TexTidy

open Bytes (ink)
open Text (Tight Even tight_append even_append)
open Layout (broken broken_tight Writes writes_append Doc Atom)

/-! ## white space that ends a line -/

/-- White space that ends the line it begins on. -/
def LineTail (z : Bytes) : Prop :=
  ∃ p y, z = p ++ Byte.newline :: y ∧ ∀ b ∈ p, isPad b = true

/-- White space that begins with no carriage return, so that it can be the end of a comment. -/
def SoftTail (z : Bytes) : Prop :=
  (∀ b ∈ z, isPad b = true) ∨ LineTail z

theorem softTail_nil : SoftTail [] :=
  .inl (by simp)

theorem LineTail.append {z : Bytes} (h : LineTail z) (y : Bytes) : LineTail (z ++ y) := by
  obtain ⟨p, x, rfl, hp⟩ := h
  exact ⟨p, x ++ y, by simp, hp⟩

namespace Layout

/-- What a line break makes of the white space behind a tight text. -/
theorem broken_white {s w : Bytes} (hs : Tight s) (hw : ink w = []) (indent : Nat) :
    ∃ v, broken indent (s ++ w) = s ++ v ∧ ink v = [] ∧
      v.count Byte.newline = w.count Byte.newline + 1 ∧ (SoftTail w → LineTail v) := by
  obtain ⟨kept, pads, rfl, hpads, hstrip⟩ := Text.stripEnd_append hs w
  obtain ⟨v, hbroken, hv, hcount⟩ := broken_append hs hw indent
  refine ⟨v, hbroken, hv, hcount, fun hsoft => ?_⟩
  rw [broken, hstrip, List.append_assoc] at hbroken
  rw [← List.append_cancel_left hbroken]
  rcases hsoft with hall | ⟨p, y, hsplit, hp⟩
  · exact ⟨kept, _, rfl, fun b hb => hall b (List.mem_append_left _ hb)⟩
  · -- the newline was not stripped
    rcases List.append_eq_append_iff.1 hsplit with ⟨more, rfl, hmore⟩ | ⟨more, rfl, hmore⟩
    · have hmem : Byte.newline ∈ pads := by rw [hmore]; simp
      cases hpads _ hmem
    · cases more with
      | nil =>
        have hmem : Byte.newline ∈ pads := by
          rw [List.nil_append] at hmore
          rw [← hmore]
          simp
        cases hpads _ hmem
      | cons a more =>
        rw [List.cons_append, List.cons.injEq] at hmore
        obtain ⟨rfl, -⟩ := hmore
        exact ⟨p, more ++ Byte.newline :: Bytes.spaces indent, by simp, hp⟩

end Layout

/-! ## ends of texts -/

/-- The text is not empty, and if it ends in a line break, that is the name of a command. -/
def Stemmed (u : Bytes) : Prop :=
  ∃ a b, u = a ++ [b] ∧ (b = Byte.newline → a.getLast? = some Byte.backslash)

theorem stemmed_of_getLast? {u : Bytes} {b : UInt8} (hu : u.getLast? = some b) (hb : b ≠ Byte.newline) :
    Stemmed u := by
  obtain ⟨a, rfl⟩ := List.getLast?_eq_some_iff.1 hu
  exact ⟨a, b, rfl, fun h => absurd h hb⟩

theorem Stemmed.ne_nil {u : Bytes} (h : Stemmed u) : u ≠ [] := by
  obtain ⟨a, b, rfl, -⟩ := h
  simp

theorem Stemmed.append {u : Bytes} (h : Stemmed u) (s : Bytes) : Stemmed (s ++ u) := by
  obtain ⟨a, b, rfl, hstem⟩ := h
  refine ⟨s ++ a, b, by simp, fun hb => ?_⟩
  rw [List.getLast?_append, hstem hb]
  rfl

theorem Sign.stemmed {x : Bytes} (h : Sign x) : Stemmed x := by
  obtain ⟨b, hb, -⟩ := h.last
  exact stemmed_of_getLast? hb fun hnewline => h.line (hnewline ▸ List.mem_of_getLast? hb)

/-! ## separators -/

namespace Print

/-- The strength of a separator that waits. -/
def rankOf (gap : Option Separator) : Nat :=
  gap.elim 0 Separator.rank

theorem rankOf_widen (gap : Option Separator) (s : Separator) :
    rankOf (widen gap s) = max (rankOf gap) s.rank := by
  cases gap with
  | none => simp [widen, rankOf]
  | some a => exact a.rank_strongest s

/-- What becomes of the white space `w` when a separator is written behind it. -/
structure Widened (gap : Option Separator) (w v : Bytes) : Prop where
  white : ink v = []
  kept : v = [] → w = [] ∧ rankOf gap < 2
  count : w.count Byte.newline + (rankOf gap - 2) ≤ v.count Byte.newline
  soft : SoftTail w → SoftTail v
  line : 3 ≤ rankOf gap → SoftTail w → LineTail v

theorem ne_nil_of_count {v : Bytes} {n : Nat} (h : v.count Byte.newline = n + 1) : v ≠ [] := by
  rintro rfl
  cases h

/-- A single line break is written for every separator up to a forced line. -/
theorem widened_broken {gap : Option Separator} {s w : Bytes} (hrank : rankOf gap ≤ 3) (hs : Tight s)
    (hw : ink w = []) (indent : Nat) : ∃ v, broken indent (s ++ w) = s ++ v ∧ Widened gap w v := by
  obtain ⟨v, hbroken, hv, hcount, hline⟩ := Layout.broken_white hs hw indent
  exact ⟨v, hbroken, hv, fun h => absurd h (ne_nil_of_count hcount), by omega, fun h => .inr (hline h),
    fun _ => hline⟩

/-- **A separator that is written keeps what stands before it** and adds white space as its strength says. -/
theorem widened_of_writes {gap : Option Separator} {s w t : Bytes}
    (h : Writes (gapAtoms gap) (s ++ w) t) (hs : Tight s) (hw : ink w = []) :
    ∃ v, t = s ++ v ∧ Widened gap w v := by
  have hsame (hrank : rankOf gap < 2) : Widened gap w w :=
    ⟨hw, fun h => ⟨h, hrank⟩, by omega, id, fun h => by omega⟩
  cases gap with
  | none =>
    cases h
    exact ⟨w, rfl, hsame (by decide)⟩
  | some sep =>
    cases sep with
    | none =>
      rw [show t = s ++ w ++ [] from h, List.append_nil]
      exact ⟨w, rfl, hsame (by decide)⟩
    | soft =>
      rcases h with h | ⟨indent, h⟩
      · cases h
        exact ⟨w, rfl, hsame (by decide)⟩
      · cases h
        exact widened_broken (by decide) hs hw indent
    | line =>
      rcases h with h | ⟨indent, h⟩
      · rw [show t = s ++ w ++ [Byte.space] from h, List.append_assoc]
        refine ⟨_, rfl, by simp [hw], fun h => by simp at h, ?_, fun hsoft => ?_,
          fun h => absurd h (by decide)⟩
        · rw [List.count_append]
          exact Nat.le_add_right _ _
        · rcases hsoft with hall | hline
          · refine .inl fun b hb => ?_
            rcases List.mem_append.1 hb with hb | hb
            · exact hall b hb
            · rw [List.mem_singleton.1 hb]
              rfl
          · exact .inr (hline.append _)
      · cases h
        exact widened_broken (by decide) hs hw indent
    | forced =>
      obtain ⟨indent, h⟩ := h
      cases h
      exact widened_broken (by decide) hs hw indent
    | paragraph =>
      obtain ⟨indent, indent', h⟩ := h
      obtain ⟨v, hbroken, hv, hcount, hline⟩ := Layout.broken_white hs hw indent
      rw [hbroken] at h
      obtain ⟨v', hbroken', hv', hcount', hline'⟩ := Layout.broken_white hs hv indent'
      rw [hbroken'] at h
      cases h
      refine ⟨v', rfl, hv', fun h => absurd h (ne_nil_of_count hcount'), ?_,
        fun h => .inr (hline' (.inr (hline h))), fun _ h => hline' (.inr (hline h))⟩
      simp only [rankOf, Option.elim_some, Separator.rank]
      omega

/-! ## ends of sequences -/

end Print

namespace Node

theorem isSpace_of_isParbreak {n : Node} (h : n.isParbreak = true) : n.isSpace = true := by
  unfold isParbreak at h
  split at h
  · rfl
  · cases h

/-- The first node of a sequence that is no white space. -/
def leader (ns : List Node) : Option Node :=
  (ns.dropWhile isSpace).head?

theorem leader_space {n : Node} (hn : n.isSpace = true) (ns : List Node) : leader (n :: ns) = leader ns := by
  simp [leader, hn]

theorem leader_solid {n : Node} (hn : n.isSpace = false) (ns : List Node) :
    leader (n :: ns) = some n := by
  simp [leader, hn]

theorem leader_ne_none {ns : List Node} {n : Node} (h : leader ns = some n) : ns.all isSpace = false := by
  refine Bool.eq_false_iff.2 fun hall => ?_
  rw [leader, List.dropWhile_eq_nil_iff.2 (List.all_eq_true.1 hall)] at h
  cases h

end Node

namespace Print

theorem endsInComment_space {n : Node} (hn : n.isSpace = true) (ns : List Node) :
    endsInComment (n :: ns) = endsInComment ns := by
  simp only [endsInComment, Node.getLast?_trim, List.reverse_cons, List.find?_append]
  simp [hn]

theorem endsInComment_all {ns : List Node} (h : ns.all Node.isSpace = true) : endsInComment ns = false := by
  have hnone : ns.reverse.find? (fun n => !n.isSpace) = none :=
    List.find?_eq_none.2 fun n hn => by simpa using List.all_eq_true.1 h n (List.mem_reverse.1 hn)
  rw [endsInComment, Node.getLast?_trim, hnone]
  rfl

theorem endsInComment_last {n : Node} (hn : n.isSpace = false) {ns : List Node}
    (h : ns.all Node.isSpace = true) : endsInComment (n :: ns) = n.comment?.isSome := by
  have hnone : ns.reverse.find? (fun n => !n.isSpace) = none :=
    List.find?_eq_none.2 fun n hn => by simpa using List.all_eq_true.1 h n (List.mem_reverse.1 hn)
  simp only [endsInComment, Node.getLast?_trim, List.reverse_cons, List.find?_append, hnone]
  simp [hn]

theorem endsInComment_more {ns : List Node} (h : ns.all Node.isSpace = false) (n : Node) :
    endsInComment (n :: ns) = endsInComment ns := by
  obtain ⟨m, hm⟩ : ∃ m, ns.reverse.find? (fun n => !n.isSpace) = some m := by
    rw [← Option.isSome_iff_exists, List.find?_isSome]
    obtain ⟨m, hm, hsolid⟩ := List.all_eq_false.1 h
    exact ⟨m, List.mem_reverse.2 hm, by simpa using hsolid⟩
  simp only [endsInComment, Node.getLast?_trim, List.reverse_cons, List.find?_append, hm]
  rfl

end Print

/-! ## the invariant -/

open Node (All Each leader hasGlue leadsToControl beginsApart areSettled)
open Print (Step Separator emit flow inlineSteps argumentSteps delimitedSteps nodeDoc nodeDocs nodeSteps
  isInline gapAtoms widen rankOf Widened widened_of_writes rankOf_widen endsInComment present)

/-- All nodes of a sequence are steady. -/
structure Node.SteadyAll (r : Registry) (keep : Bool) (ns : List Node) : Prop where
  settled : areSettled r ns = true
  loose : All (fun m => m.isGroup = true → Each (fun k => k.isLoose r keep = true) m) ns
  unglued : All (fun m => m.isUnglued = true) ns
  filled : All (fun m => All (fun k => k.isFilled = true) m.quoted) ns

theorem Node.steadyAll_cons_iff {r : Registry} {keep : Bool} {n : Node} {ns : List Node} :
    SteadyAll r keep (n :: ns) ↔ n.Steady r keep ∧ SteadyAll r keep ns := by
  constructor
  · rintro ⟨hsettled, hloose, hunglued, hfilled⟩
    rw [areSettled, Bool.and_eq_true] at hsettled
    rw [Node.all_cons_iff] at hloose hunglued hfilled
    exact ⟨⟨hsettled.1, hloose.1, hunglued.1, hfilled.1⟩, hsettled.2, hloose.2, hunglued.2, hfilled.2⟩
  · rintro ⟨hn, hns⟩
    refine ⟨?_, Node.all_cons hn.loose hns.loose, Node.all_cons hn.unglued hns.unglued,
      Node.all_cons hn.filled hns.filled⟩
    rw [areSettled, hn.settled, hns.settled]
    rfl

/-- The steps of what a node holds itself. -/
def Print.ownSteps (measure : Bytes → Nat) (mode : Mode) (n : Node) : List Step :=
  if isInline mode n then inlineSteps measure mode n else [.content (nodeDoc measure mode n)]

/-- What is written of a node is a spelling of it. -/
def Node.Flows (r : Registry) (keep : Bool) (n : Node) : Prop :=
  ∀ ⦃measure mode ss s t⦄, n.Steady r keep → (n.isControl = true → Even s) →
    Writes (emit true none (Print.ownSteps measure mode n ++ ss)) s t →
    ∃ u, Writes (emit true none ss) (s ++ u) t ∧ Stemmed u ∧ Spells r keep (.node n) u ∧ Tight (s ++ u) ∧
      n.Balances s (s ++ u)

/-- What is written of arguments is a spelling of them, whether they are laid out by themselves or flow
    with the paragraph around them. -/
def Node.ArgsFlow (r : Registry) (keep : Bool) (as : List Node) : Prop :=
  (∀ ⦃measure mode s t⦄, SteadyAll r keep as → Tight s → (leadsToControl as = true → Even s) →
    Writes (Doc.atomsAll (nodeDocs measure mode as)) s t →
    ∃ u, t = s ++ u ∧ (u = [] ∨ Stemmed u) ∧ Spells r keep (.args as) u ∧ Tight (s ++ u) ∧
      ((as.all Node.isBackslashes = true → Even s) → Even (s ++ u))) ∧
  (∀ ⦃measure mode ss s t⦄, SteadyAll r keep as → Tight s → (leadsToControl as = true → Even s) →
    Writes (emit true none (argumentSteps measure mode as ++ ss)) s t →
    ∃ u, Writes (emit true none ss) (s ++ u) t ∧ (u = [] ∨ Stemmed u) ∧ Spells r keep (.args as) u ∧
      Tight (s ++ u) ∧ ((as.all Node.isBackslashes = true → Even s) → Even (s ++ u)))

/-- Where a paragraph stands: `s` is written, and behind it the white space `w`. For the nodes `us` a
    separator may wait. `remark` says that `s` ends in a comment. -/
structure Poised (begun : Bool) (gap : Option Separator) (remark trim inked : Bool) (b : Before)
    (us : List Node) (s w : Bytes) (ns : List Node) : Prop where
  tight : Tight s
  white : ink w = []
  spaces : ∀ u ∈ us, u.isSpace = true
  fresh : begun = false → (leader ns).any (·.comment?.isNone) = true → w ≠ [] ∨ b.sticky = false
  kept : ∀ n, leader ns = some n → n.comment? = none → us ≠ [] → b.sticky = true →
    w ≠ [] ∨ 2 ≤ rankOf gap ∨ begun = true ∧ n.standsAlone = true
  broken : ∀ n, leader ns = some n → n.comment? = none → b.hungry = true → n.isEdible = true →
    (∃ u ∈ us, u.isParbreak = true) → 2 ≤ w.count Byte.newline ∨ 4 ≤ rankOf gap
  apart : trim = true → inked = false → b.hungry = true → beginsApart ns = false
  start : trim = true → inked = false → begun = false
  even : remark = false → us = [] ∧ Node.leadsToControl ns = true ∨ b.sticky = false → Even s
  remark : remark = true → b = {} ∧ w = [] ∧ inked = true ∧
    (ns.all Node.isSpace = true ∨ 3 ≤ rankOf gap ∨ ns.head?.any Node.isParbreak = true)

/-- What was written for a sequence: the white space `v`, then `u`, and behind it the white space `w'` that
    is not the last. -/
structure Flowed (r : Registry) (keep remark : Bool) (b : Before) (us ns : List Node)
    (s w v u w' : Bytes) : Prop where
  tight : Tight (s ++ v ++ u)
  white : ink v = []
  rest : ink w' = []
  solid : ns.all Node.isSpace = false → Stemmed u
  idle : ns.all Node.isSpace = true → v = [] ∧ u = [] ∧ w' = w
  bare : endsInComment ns = true → w' = [] ∧ u.getLast? ≠ some Byte.newline
  line : remark = true → ns.all Node.isSpace = false → LineTail v
  spells : ∀ v' z, ink v' = [] → v' = v ∨ b = {} → ink z = [] → (endsInComment ns = true → LineTail z) →
    Spells r keep (.nodes b (us ++ ns)) (v' ++ u ++ z)

/-- What is written of a sequence is a spelling of it, whatever steps `ss` follow. -/
def Node.NodesFlow (r : Registry) (keep : Bool) (ns : List Node) : Prop :=
  ∀ ⦃measure mode preamble trim inked previous begun gap remark b us s w ss t⦄, SteadyAll r keep ns →
    hasGlue ns = false → Poised begun gap remark trim inked b us s w ns →
    Writes (emit begun gap (flow measure mode preamble trim inked previous ns ++ ss)) (s ++ w) t →
    ∃ begun' gap' v u w', Writes (emit begun' gap' ss) (s ++ v ++ u ++ w') t ∧
      Flowed r keep remark b us ns s w v u w'

/-! ## sequences -/

section

open Node (NodesFlow)

variable {r : Registry} {keep : Bool} {n : Node} {ns us : List Node} {begun remark trim inked preamble : Bool}
  {gap : Option Separator} {b : Before} {s w t : Bytes} {measure : Bytes → Nat} {mode : Mode}
  {previous : Option Node} {ss : List Step}

theorem nodesFlow_nil : NodesFlow r keep [] := by
  intro measure mode preamble trim inked previous begun gap remark b us s w ss t _ _ h hwrites
  rw [flow, List.nil_append] at hwrites
  refine ⟨begun, gap, [], [], w, by simpa using hwrites, by simpa using h.tight, rfl, h.white,
    fun h => (by cases h), fun _ => ⟨rfl, rfl, rfl⟩, fun h => (by cases h), fun _ h => (by cases h),
    fun v' z hv' _ hz _ => ?_⟩
  rw [List.append_nil]
  exact .done h.spaces (by simp [hv', hz])

theorem flow_cons : flow measure mode preamble trim inked previous (n :: ns) =
    (if trim && n.isSpace && (!inked || ns.all Node.isSpace) then []
      else nodeSteps mode preamble (present previous) (present ns.head?) n
        (Print.ownSteps measure mode n)) ++
    flow measure mode preamble trim (inked || !n.isSpace) (some n) ns := by
  rw [flow]
  rfl

/-- A space vanishes only in front of a block. -/
theorem rank_spaceBetween (preamble : Bool) (previous next : Option Node) :
    2 ≤ (Print.spaceBetween preamble previous next).rank ∨ next.any Node.standsAlone = true := by
  unfold Print.spaceBetween
  split
  · next h => exact .inr h
  · repeat' split
    all_goals exact .inl (by decide)

/-- White space makes the separator that waits stronger. -/
theorem writes_space (hn : n.isSpace = true)
    (h : Writes (emit begun gap (flow measure mode preamble trim inked previous (n :: ns) ++ ss)) s t) :
    ∃ gap', Writes (emit begun gap' (flow measure mode preamble trim inked (some n) ns ++ ss)) s t ∧
      rankOf gap ≤ rankOf gap' ∧
      ((trim && (!inked || ns.all Node.isSpace)) = false →
        (n.isParbreak = true → 4 ≤ rankOf gap') ∧
        (2 ≤ rankOf gap' ∨ (present ns.head?).any Node.standsAlone = true)) := by
  rw [flow_cons, hn, Bool.and_true, Bool.not_true, Bool.or_false] at h
  cases htrim : trim && (!inked || ns.all Node.isSpace) with
  | true =>
    rw [htrim, if_pos rfl, List.nil_append] at h
    exact ⟨gap, h, Nat.le_refl _, fun h => by cases h⟩
  | false =>
    rw [htrim, if_neg (by simp)] at h
    obtain ⟨sep, hsteps, hbreak, hrank⟩ : ∃ sep, nodeSteps mode preamble (present previous)
        (present ns.head?) n (Print.ownSteps measure mode n) = [.separator sep] ∧
        (n.isParbreak = true → sep = .paragraph) ∧
        (2 ≤ sep.rank ∨ (present ns.head?).any Node.standsAlone = true) := by
      unfold Node.isSpace at hn
      split at hn
      · exact ⟨_, rfl, fun h => (by cases h), rank_spaceBetween _ _ _⟩
      · exact ⟨_, rfl, fun _ => rfl, .inl (by decide)⟩
      · cases hn
    rw [hsteps] at h
    refine ⟨widen gap sep, h, ?_, fun _ => ⟨fun h => ?_, ?_⟩⟩
    · rw [rankOf_widen]
      exact Nat.le_max_left _ _
    · rw [rankOf_widen, hbreak h]
      exact Nat.le_max_right _ _
    · rw [rankOf_widen]
      exact hrank.imp_left fun h => Nat.le_trans h (Nat.le_max_right _ _)

/-- White space alone only makes the separator that waits stronger. -/
theorem writes_spaces (hall : ns.all Node.isSpace = true)
    (h : Writes (emit begun gap (flow measure mode preamble false inked previous ns ++ ss)) s t) :
    ∃ gap', Writes (emit begun gap' ss) s t ∧
      rankOf gap ≤ rankOf gap' ∧ (ns.any Node.isParbreak = true → 4 ≤ rankOf gap') := by
  induction ns generalizing gap previous with
  | nil =>
    rw [flow, List.nil_append] at h
    exact ⟨gap, h, Nat.le_refl _, fun h => by cases h⟩
  | cons n ns ih =>
    rw [List.all_cons, Bool.and_eq_true] at hall
    obtain ⟨gap₁, htail, hrank₁, hbreak⟩ := writes_space hall.1 h
    obtain ⟨gap₂, hrest, hrank₂, hbreaks⟩ := ih hall.2 htail
    refine ⟨gap₂, hrest, Nat.le_trans hrank₁ hrank₂, fun hany => ?_⟩
    rw [List.any_cons, Bool.or_eq_true] at hany
    rcases hany with hn | hns
    · exact Nat.le_trans ((hbreak rfl).1 hn) hrank₂
    · exact hbreaks hns

theorem beginsApart_space (hn : n.isSpace = true) :
    beginsApart (n :: ns) = (n.isParbreak && (leader ns).any Node.isEdible || beginsApart ns) := by
  rw [beginsApart, beginsApart, leader, List.takeWhile_cons_of_pos hn, List.dropWhile_cons_of_pos hn,
    List.any_cons, Bool.and_or_distrib_right]

/-- A block that comes next is the first node that comes. -/
theorem standsAlone_leader {m : Node} (h : (present ns.head?).any Node.standsAlone = true)
    (hm : leader ns = some m) : m.standsAlone = true := by
  cases ns with
  | nil => cases h
  | cons k ns =>
    have hk : k.standsAlone = true := by
      rw [present, List.head?_cons, Option.filter] at h
      split at h
      · exact h
      · cases h
    have hsolid : k.isSpace = false := by
      cases k with
      | leaf => cases hk
      | branch => rfl
    rw [Node.leader_solid hsolid] at hm
    cases hm
    exact hk

/-- The state of a paragraph after white space. -/
theorem Poised.space {gap' : Option Separator} (hn : n.isSpace = true)
    (h : Poised begun gap remark trim inked b us s w (n :: ns)) (hrank : rankOf gap ≤ rankOf gap')
    (hgap : (trim && (!inked || ns.all Node.isSpace)) = false →
      (n.isParbreak = true → 4 ≤ rankOf gap') ∧
      (2 ≤ rankOf gap' ∨ (present ns.head?).any Node.standsAlone = true)) :
    Poised begun gap' remark trim inked b (us ++ [n]) s w ns := by
  have hlead := Node.leader_space hn ns
  -- with a node still to come, white space is trimmed only in front of the first one
  have htrim {m : Node} (hm : leader ns = some m) :
      (trim && (!inked || ns.all Node.isSpace)) = false ∨ trim = true ∧ inked = false := by
    rw [Node.leader_ne_none hm]
    cases trim <;> cases inked <;> simp
  refine ⟨h.tight, h.white, ?_, fun hbegun hcode => ?_, fun m hm hcode _ hsticky => ?_,
    fun m hm hcode hhungry hedible hpar => ?_, fun ht hi hhungry => ?_, h.start, fun hremark hor => ?_,
    fun hremark => ?_⟩
  · intro u hu
    rcases List.mem_append.1 hu with hu | hu
    · exact h.spaces u hu
    · rw [List.mem_singleton.1 hu]
      exact hn
  · exact h.fresh hbegun (by rwa [hlead])
  · have hfresh (hbegun : begun = false) : w ≠ [] :=
      (h.fresh hbegun (by simp [hlead, hm, hcode])).resolve_right (by simp [hsticky])
    rcases htrim hm with hstay | ⟨ht, hi⟩
    · rcases (hgap hstay).2 with hline | hblock
      · exact .inr (.inl hline)
      · cases hbegun : begun with
        | true => exact .inr (.inr ⟨rfl, standsAlone_leader hblock hm⟩)
        | false => exact .inl (hfresh hbegun)
    · exact .inl (hfresh (h.start ht hi))
  · obtain ⟨u, hu, hpar⟩ := hpar
    rcases List.mem_append.1 hu with hu | hu
    · exact (h.broken m (hlead.trans hm) hcode hhungry hedible ⟨u, hu, hpar⟩).imp_right
        fun hfour => Nat.le_trans hfour hrank
    · rw [List.mem_singleton.1 hu] at hpar
      rcases htrim hm with hstay | ⟨ht, hi⟩
      · exact .inr ((hgap hstay).1 hpar)
      · -- the paragraph break is dropped, but then nothing waits for an argument
        have hapart := h.apart ht hi hhungry
        rw [beginsApart_space hn, hpar, hm] at hapart
        simp [hedible] at hapart
  · have hapart := h.apart ht hi hhungry
    rw [beginsApart_space hn, Bool.or_eq_false_iff] at hapart
    exact hapart.2
  · exact h.even hremark (.inr (hor.resolve_left (by simp)))
  · obtain ⟨hb, hw, hi, hor⟩ := h.remark hremark
    refine ⟨hb, hw, hi, ?_⟩
    rcases hor with hall | hthree | hpar
    · exact .inl (by simpa [hn] using hall)
    · exact .inr (.inl (Nat.le_trans hthree hrank))
    · cases hstay : trim && (!inked || ns.all Node.isSpace) with
      | false =>
        have hfour := (hgap hstay).1 hpar
        exact .inr (.inl (by omega))
      | true =>
        rw [hi, Bool.not_true, Bool.false_or, Bool.and_eq_true] at hstay
        exact .inl hstay.2

theorem nodesFlow_space (hn : n.isSpace = true) (ih : NodesFlow r keep ns) : NodesFlow r keep (n :: ns) := by
  intro measure mode preamble trim inked previous begun gap remark b us s w ss t hsteady hglue h hwrites
  obtain ⟨gap', hwrites, hrank, hgap⟩ := writes_space hn hwrites
  obtain ⟨begun', gap'', v, u, w', hrest, hflowed⟩ := ih (Node.steadyAll_cons_iff.1 hsteady).2
    (Node.hasGlue_cons hglue).1 (h.space hn hrank hgap) hwrites
  refine ⟨begun', gap'', v, u, w', hrest, hflowed.tight, hflowed.white, hflowed.rest,
    fun hall => hflowed.solid (by simpa [hn] using hall), fun hall => ?_, ?_, ?_, ?_⟩
  · exact hflowed.idle (by simpa [hn] using hall)
  · rw [Print.endsInComment_space hn]
    exact hflowed.bare
  · intro hremark hall
    exact hflowed.line hremark (by simpa [hn] using hall)
  · intro v' z hv' hb hz hend
    rw [Print.endsInComment_space hn] at hend
    simpa using hflowed.spells v' z hv' hb hz hend

/-- Nothing can be stripped from the text of a comment. -/
theorem tight_commentText (c : Comment) (s : Bytes) : Tight (s ++ Print.commentText c) := by
  rw [Print.commentText]
  cases hlast : (c.content.trimEnd isLineBlank).getLast? with
  | none =>
    rw [List.getLast?_eq_none_iff.1 hlast]
    exact tight_append rfl rfl
  | some b =>
    refine tight_append (b := b) (by rw [List.getLast?_cons, hlast]; rfl) ?_
    rw [Bytes.trimEnd, List.getLast?_reverse] at hlast
    have hhead := List.head?_dropWhile_not isLineBlank c.content.reverse
    rw [hlast] at hhead
    simp only [isLineBlank, Bool.or_eq_false_iff] at hhead
    exact hhead.1

theorem getLast?_commentText {c : Comment} (h : Byte.newline ∉ c.content) :
    (Print.commentText c).getLast? ≠ some Byte.newline := by
  intro hlast
  rcases List.mem_cons.1 (List.mem_of_getLast? hlast) with hpercent | hmem
  · cases hpercent
  · exact h ((List.rdropWhile_prefix isLineBlank _).subset hmem)

theorem stemmed_commentText {c : Comment} (h : Byte.newline ∉ c.content) : Stemmed (Print.commentText c) := by
  obtain ⟨b, hb⟩ := Option.isSome_iff_exists.1
    (List.getLast?_isSome.2 (List.cons_ne_nil Byte.percent (c.content.trimEnd isLineBlank)))
  exact stemmed_of_getLast? hb fun hnewline => getLast?_commentText h (hnewline ▸ hb)

theorem getLast?_append_ne {u x : Bytes} {b : UInt8} (hu : u ≠ []) (hb : u.getLast? ≠ some b) :
    (x ++ u).getLast? ≠ some b := by
  obtain ⟨a, ha⟩ := Option.isSome_iff_exists.1 (List.getLast?_isSome.2 hu)
  rw [List.getLast?_append, ha]
  rwa [ha] at hb

/-- What the steps of a comment write. -/
theorem writes_comment {c : Comment} {before : Bool} {next : Option Node}
    (h : Writes (emit begun gap (Print.commentSteps c before next ++ ss)) s t) :
    ∃ gap₁ gap₂ shift,
      Writes (gapAtoms gap₁ ++ (.text (shift ++ Print.commentText c) :: emit true gap₂ ss)) s t ∧
      rankOf gap ≤ rankOf gap₁ ∧ ink shift = [] ∧
      (next.isSome = true → before = false → 3 ≤ rankOf gap₂) := by
  obtain ⟨gap₂, htail, hrank⟩ : ∃ gap₂, emit true none ((if next.isSome && !before
      then [Step.separator .forced] else []) ++ ss) = emit true gap₂ ss ∧
      (next.isSome = true → before = false → 3 ≤ rankOf gap₂) := by
    split
    · exact ⟨some .forced, rfl, fun _ _ => by decide⟩
    · next h =>
      refine ⟨none, rfl, fun hnext hbefore => absurd ?_ h⟩
      simp [hnext, hbefore]
  rw [Print.commentSteps, List.append_assoc] at h
  split at h
  · refine ⟨gap, gap₂, if c.leading.isEmpty then [] else [Byte.space], ?_, Nat.le_refl _, ?_, hrank⟩
    · rw [← htail]
      simpa [emit, Doc.atoms] using h
    · split <;> rfl
  · refine ⟨if begun then widen gap .forced else gap, gap₂, [], ?_, ?_, rfl, hrank⟩
    · rw [← htail]
      simpa [emit, Doc.atoms] using h
    · split
      · rw [rankOf_widen]
        exact Nat.le_max_left _ _
      · exact Nat.le_refl _

/-- A comment is spelled by its text and white space that ends the line. -/
theorem spells_commentText {c : Comment} {p y v : Bytes} (h : Spells r keep (.nodes {} ns) y)
    (hus : ∀ u ∈ us, u.isSpace = true) (hn : n.comment? = some c) (hv : ink v = [])
    (hline : Byte.newline ∉ c.content) (hp : ∀ b ∈ p, isPad b = true) :
    Spells r keep (.nodes b (us ++ n :: ns)) (v ++ Print.commentText c ++ p ++ Byte.newline :: y) := by
  have hspells : Spells r keep (.nodes b (us ++ n :: ns))
      (v ++ Byte.percent :: (c.content.trimEnd isLineBlank ++ p ++ Byte.newline :: y)) := by
    refine h.remarkLine hus hn hv (fun hmem => ?_) ?_
    · rcases List.mem_append.1 hmem with hmem | hmem
      · exact hline ((List.rdropWhile_prefix isLineBlank _).subset hmem)
      · cases hp _ hmem
    · rw [Bytes.trimEnd_append _ fun b hb => ?_]
      · exact List.rdropWhile_idempotent isLineBlank c.content
      · simp [isLineBlank, hp b hb]
  simpa [Print.commentText] using hspells

/-- What is known of a comment in a sequence of nodes. -/
structure Node.Remarks (ns : List Node) (c : Comment) (before : Bool) : Prop where
  line : Byte.newline ∉ c.content
  flag : before = true → ns.head?.any isParbreak = true
  next : ns.head?.any isMissing = false

/-- The state of a paragraph after a comment. -/
theorem poised_remark {c : Comment} {before : Bool} (h : Node.Remarks ns c before) (s : Bytes)
    (hgap : (present ns.head?).isSome = true → before = false → 3 ≤ rankOf gap) :
    Poised true gap true trim true {} [] (s ++ Print.commentText c) [] ns := by
  refine ⟨tight_commentText c s, rfl, by simp, fun h => (by cases h), fun _ _ _ h => absurd rfl h,
    fun _ _ _ h => (by cases h), fun _ h => (by cases h), fun _ h => (by cases h), fun h => (by cases h),
    fun _ => ⟨rfl, rfl, rfl, ?_⟩⟩
  cases ns with
  | nil => exact .inl rfl
  | cons m ns =>
    have hm : (present (m :: ns).head?).isSome = true := by
      have hnext := h.next
      rw [List.head?_cons, Option.any_some] at hnext
      rw [present, List.head?_cons, Option.filter_some, hnext]
      rfl
    cases hbefore : before with
    | true => exact .inr (.inr (h.flag hbefore))
    | false => exact .inr (.inl (hgap hm hbefore))

theorem nodesFlow_comment {span : Span} {hints : Hints} {c : Comment} {before : Bool}
    (hn : n = .leaf span hints (.comment c before)) (hremarks : Node.Remarks ns c before)
    (ih : NodesFlow r keep ns) : NodesFlow r keep (n :: ns) := by
  intro measure mode preamble trim inked previous begun gap remark b us s w ss t hsteady hglue h hwrites
  have hcomment : n.comment? = some c := by rw [hn]; rfl
  have hsolid : n.isSpace = false := by rw [hn]; rfl
  have hsteps : nodeSteps mode preamble (present previous) (present ns.head?) n
      (Print.ownSteps measure mode n) = Print.commentSteps c before (present ns.head?) := by
    rw [hn]
    rfl
  rw [flow_cons, hsteps, hsolid, Bool.and_false, Bool.false_and, if_neg (by simp), Bool.not_false,
    Bool.or_true, List.append_assoc] at hwrites
  obtain ⟨gap₁, gap₂, shift, hwrites, hrank, hshift, hgap₂⟩ := writes_comment hwrites
  obtain ⟨t₁, hgapwrites, hwrites⟩ := writes_append.1 hwrites
  obtain ⟨v₁, rfl, hv₁⟩ := widened_of_writes hgapwrites h.tight h.white
  have hwrites : Writes (emit true gap₂ (flow measure mode preamble trim true (some n) ns ++ ss))
      (s ++ (v₁ ++ shift) ++ Print.commentText c ++ []) t := by
    simpa [Writes] using hwrites
  obtain ⟨begun', gap', v₂, u, w', hrest, hflowed⟩ := ih (Node.steadyAll_cons_iff.1 hsteady).2
    (Node.hasGlue_cons hglue).1 (poised_remark hremarks _ hgap₂) hwrites
  have hwhite : ink (v₁ ++ shift) = [] := by rw [Bytes.ink_append, hv₁.white, hshift]; rfl
  refine ⟨begun', gap', v₁ ++ shift, Print.commentText c ++ v₂ ++ u, w', by simpa using hrest,
    by simpa using hflowed.tight, hwhite, hflowed.rest, fun _ => ?_, fun hall => ?_, fun hend => ?_,
    fun hremark _ => ?_, fun v' z hv' _ hz hend => ?_⟩
  · cases hall : ns.all Node.isSpace with
    | true =>
      obtain ⟨rfl, rfl, -⟩ := hflowed.idle hall
      simpa using stemmed_commentText hremarks.line
    | false => exact (hflowed.solid hall).append _
  · simp [hsolid] at hall
  · cases hall : ns.all Node.isSpace with
    | true =>
      obtain ⟨rfl, rfl, rfl⟩ := hflowed.idle hall
      exact ⟨rfl, by simpa using getLast?_commentText hremarks.line⟩
    | false =>
      rw [Print.endsInComment_more hall] at hend
      exact ⟨(hflowed.bare hend).1, getLast?_append_ne (hflowed.solid hall).ne_nil (hflowed.bare hend).2⟩
  · obtain ⟨-, rfl, -, hor⟩ := h.remark hremark
    have hthree : 3 ≤ rankOf gap := by
      rcases hor with hall | hthree | hpar
      · simp [hsolid] at hall
      · exact hthree
      · rw [hn] at hpar
        cases hpar
    exact (hv₁.line (Nat.le_trans hthree hrank) softTail_nil).append shift
  · cases hall : ns.all Node.isSpace with
    | true =>
      -- the white space that follows has to end the line
      rw [Print.endsInComment_last hsolid hall, hcomment] at hend
      obtain ⟨rfl, rfl, -⟩ := hflowed.idle hall
      obtain ⟨p, y, rfl, hp⟩ := hend rfl
      have hdone : Spells r keep (.nodes {} ns) y :=
        .done (List.all_eq_true.1 hall) (Bytes.ink_of_append (s := p ++ [Byte.newline]) (by simpa using hz))
      simpa using spells_commentText (b := b) hdone h.spaces hcomment hv' hremarks.line hp
    | false =>
      obtain ⟨p, y, rfl, hp⟩ := hflowed.line rfl hall
      have hy : ink y = [] := Bytes.ink_of_append (s := p ++ [Byte.newline]) (by simpa using hflowed.white)
      rw [Print.endsInComment_more hall] at hend
      have htail := hflowed.spells y z hy (.inr rfl) hz hend
      rw [List.nil_append] at htail
      simpa using spells_commentText (b := b) htail h.spaces hcomment hv' hremarks.line hp

/-- What stands in front of the steps of a node only makes the separator that waits stronger, and only
    behind content. -/
theorem writes_lead {next : Option Node} {own : List Step} (hsolid : n.isSpace = false)
    (hcode : n.comment? = none)
    (h : Writes (emit begun gap (nodeSteps mode preamble previous next n own ++ ss)) s t) :
    ∃ gap', Writes (emit begun gap' (own ++ ss)) s t ∧ (begun = false → gap' = gap) ∧
      rankOf gap ≤ rankOf gap' ∧ (begun = true → n.standsAlone = true → 3 ≤ rankOf gap') := by
  have hopen {gap : Option Separator} (h : Writes (emit begun gap
      ((if isInline mode n then [] else Print.formulaBreak mode previous n) ++ (own ++ ss))) s t) :
      ∃ gap', Writes (emit begun gap' (own ++ ss)) s t ∧ (begun = false → gap' = gap) ∧
        rankOf gap ≤ rankOf gap' := by
    have hbreak : (if isInline mode n then [] else Print.formulaBreak mode previous n) = [] ∨
        ∃ sep, (if isInline mode n then [] else Print.formulaBreak mode previous n) = [.ifOpen sep] := by
      unfold Print.formulaBreak
      repeat' split
      all_goals simp
    rcases hbreak with hnone | ⟨sep, hsep⟩
    · rw [hnone] at h
      exact ⟨gap, h, fun _ => rfl, Nat.le_refl _⟩
    · rw [hsep] at h
      refine ⟨if begun && gap.isNone then some sep else gap, h, ?_, ?_⟩
      · rintro rfl
        rfl
      split
      · next h =>
        rw [Bool.and_eq_true, Option.isNone_iff_eq_none] at h
        rw [h.2]
        exact Nat.zero_le _
      · exact Nat.le_refl _
  unfold nodeSteps at h
  split at h
  · cases hsolid
  · cases hsolid
  · cases hcode
  · rw [List.append_assoc, List.append_assoc] at h
    split at h
    · obtain ⟨gap', hwrites, hsame, hrank⟩ := hopen h
      refine ⟨gap', hwrites, ?_, Nat.le_trans ?_ hrank, ?_⟩
      · rintro rfl
        exact hsame rfl
      · split
        · rw [rankOf_widen]
          exact Nat.le_max_left _ _
        · exact Nat.le_refl _
      · rintro rfl -
        rw [if_pos rfl, rankOf_widen] at hrank
        exact Nat.le_trans (Nat.le_max_right _ _) hrank
    · next hblock =>
      obtain ⟨gap', hwrites, hsame, hrank⟩ := hopen h
      exact ⟨gap', hwrites, hsame, hrank, fun _ halone => absurd (by simp [halone]) hblock⟩

/-- The steps of a node begin with content. -/
theorem emit_own : emit begun gap (Print.ownSteps measure mode n ++ ss) =
    gapAtoms gap ++ emit true none (Print.ownSteps measure mode n ++ ss) := by
  have hcontent (d : Doc) (ss : List Step) : emit begun gap (.content d :: ss) =
      gapAtoms gap ++ emit true none (.content d :: ss) := by
    simp [emit, gapAtoms]
  unfold Print.ownSteps
  split
  · next hinline =>
    obtain ⟨span, hints, escape, name, args, content, rfl⟩ : ∃ span hints escape name args content,
        n = .branch span hints (.command escape name) args content := by
      simp only [isInline, Bool.and_eq_true] at hinline
      unfold Node.command? at hinline
      split at hinline
      · exact ⟨_, _, _, _, _, _, rfl⟩
      · cases hinline.1.1
    rw [inlineSteps]
    exact hcontent _ _
  · exact hcontent _ _

/-- White space is written in front of a node if something could be taken for more of what stands before. -/
theorem Poised.widened {gap' : Option Separator} {v : Bytes} (hsolid : n.isSpace = false)
    (hcode : n.comment? = none) (h : Poised begun gap remark trim inked b us s w (n :: ns))
    (hrank : rankOf gap ≤ rankOf gap') (halone : begun = true → n.standsAlone = true → 3 ≤ rankOf gap')
    (hv : Widened gap' w v) : (us ≠ [] → v = [] → b.sticky = false) ∧ (remark = true → LineTail v) := by
  constructor
  · rintro hus rfl
    obtain ⟨rfl, hlow⟩ := hv.kept rfl
    refine Bool.eq_false_iff.2 fun hsticky => ?_
    rcases h.kept n (Node.leader_solid hsolid ns) hcode hus hsticky with hw | hline | ⟨hbegun, hblock⟩
    · exact hw rfl
    · omega
    · have := halone hbegun hblock
      omega
  · intro hremark
    obtain ⟨-, rfl, -, hor⟩ := h.remark hremark
    have hthree : 3 ≤ rankOf gap := by
      rcases hor with hall | hthree | hpar
      · simp [hsolid] at hall
      · exact hthree
      · rw [List.head?_cons, Option.any_some] at hpar
        rw [Node.isSpace_of_isParbreak hpar] at hsolid
        cases hsolid
    exact hv.line (Nat.le_trans hthree hrank) softTail_nil

/-- The state of a paragraph after a node. -/
theorem poised_node (htight : Tight s)
    (heven : (n.before r).sticky = false ∨ Node.leadsToControl ns = true → Even s) :
    Poised true none false trim true (n.before r) [] s [] ns :=
  ⟨htight, rfl, by simp, fun h => (by cases h), fun _ _ _ h => absurd rfl h, fun _ _ _ _ _ h => by simp at h,
    fun _ h => (by cases h), fun _ h => (by cases h), fun _ hor => heven (hor.symm.imp_right And.right),
    fun h => (by cases h)⟩

theorem nodesFlow_code (hsolid : n.isSpace = false) (hcode : n.comment? = none) (hn : n.Flows r keep)
    (ih : NodesFlow r keep ns) : NodesFlow r keep (n :: ns) := by
  intro measure mode preamble trim inked previous begun gap remark b us s w ss t hsteady hglue h hwrites
  rw [flow_cons, hsolid, Bool.and_false, Bool.false_and, if_neg (by simp), Bool.not_false, Bool.or_true,
    List.append_assoc] at hwrites
  obtain ⟨gap', hwrites, -, hrank, halone⟩ := writes_lead hsolid hcode hwrites
  rw [emit_own, writes_append] at hwrites
  obtain ⟨t₁, hgapwrites, hwrites⟩ := hwrites
  obtain ⟨v, rfl, hv⟩ := widened_of_writes hgapwrites h.tight h.white
  obtain ⟨hkept, hline⟩ := h.widened hsolid hcode hrank halone hv
  have heven (hcontrol : Node.leadsToControl (n :: ns) = true) : Even (s ++ v) := by
    refine even_of_white hv.white fun hnil => ?_
    have hremark : remark = false := by
      refine Bool.eq_false_iff.2 fun hremark => ?_
      obtain ⟨p, y, hsplit, -⟩ := hline hremark
      rw [hnil] at hsplit
      simp at hsplit
    by_cases hus : us = []
    · exact h.even hremark (.inl ⟨hus, hcontrol⟩)
    · exact h.even hremark (.inr (hkept hus hnil))
  obtain ⟨hsteady₁, hsteady₂⟩ := Node.steadyAll_cons_iff.1 hsteady
  obtain ⟨u₁, hwrites, hstem, hspells, htight, hbalances⟩ := hn hsteady₁
    (fun h => heven (Node.leadsToControl_cons.2 (.inl h))) hwrites
  rw [← List.append_nil (s ++ v ++ u₁)] at hwrites
  obtain ⟨begun', gap'', v₂, u₂, w', hrest, hflowed⟩ :=
    ih hsteady₂ (Node.hasGlue_cons hglue).1 (poised_node (r := r) htight (hbalances.even hglue heven)) hwrites
  have hend : endsInComment (n :: ns) = endsInComment ns := by
    cases hall : ns.all Node.isSpace with
    | true => rw [Print.endsInComment_last hsolid hall, hcode, Print.endsInComment_all hall]; rfl
    | false => exact Print.endsInComment_more hall n
  refine ⟨begun', gap'', v, u₁ ++ v₂ ++ u₂, w', by simpa using hrest, by simpa using hflowed.tight,
    hv.white, hflowed.rest, fun _ => ?_, fun hall => ?_, fun hcomment => ?_, fun hremark _ => hline hremark,
    fun v' z hv' hb hz hcomment => ?_⟩
  · cases hall : ns.all Node.isSpace with
    | true =>
      obtain ⟨rfl, rfl, -⟩ := hflowed.idle hall
      simpa using hstem
    | false => exact (hflowed.solid hall).append _
  · simp [hsolid] at hall
  · rw [hend] at hcomment
    have hall : ns.all Node.isSpace = false := by
      refine Bool.eq_false_iff.2 fun hall => ?_
      rw [Print.endsInComment_all hall] at hcomment
      cases hcomment
    exact ⟨(hflowed.bare hcomment).1,
      getLast?_append_ne (hflowed.solid hall).ne_nil (hflowed.bare hcomment).2⟩
  · rw [hend] at hcomment
    have hgap : Gap b us v' n := by
      refine ⟨h.spaces, hv', ?_, fun hhungry hedible hpar => ?_⟩
      · rcases hb with rfl | rfl
        · exact hkept
        · exact fun _ _ => rfl
      · rcases hb with rfl | rfl
        · have hcount := hv.count
          rcases h.broken n (Node.leader_solid hsolid ns) hcode hhungry hedible hpar with htwo | hfour
          · omega
          · omega
        · cases hhungry
    have htail := hflowed.spells v₂ z hflowed.white (.inl rfl) hz hcomment
    have hitem := Spells.item hgap hsolid hcode hspells htail
    simpa using hitem

end

end TexTidy
