import TexTidy.Proofs.Fence
import TexTidy.Proofs.Tiling

/-!
# TexTidy.Proofs.Mark

Where the comments of a tree are. Layout moves white space but keeps the ink, so a place that survives
layout is given by the ink before it: a `Mark` is a comment together with the ink that stands before its
percent sign.

The marks of a tree are defined along the tree. Two facts connect them with the text:

* every comment below a node has a mark, and its ink is that of the source up to the percent sign
  (`exists_mark`);
* in the raw pieces of a fenced node a comment is a piece of its own, and a line break follows it
  (`cuts_rawPieces`).
-/

namespace TexTidy

open Bytes (ink linePieces)
open Node (Each All Sound Fenced Linked FaithfulTo Tiles Tiled rawAll rawPiecesAll)

/-- A comment, and the ink that stands before its percent sign. -/
structure Mark where
  before : Bytes
  comment : Comment

namespace Mark

/-- The mark in a text with more ink in front. -/
def shift (s : Bytes) (m : Mark) : Mark :=
  { m with before := s ++ m.before }

theorem shift_nil (m : Mark) : m.shift [] = m := rfl

theorem map_shift_nil (ms : List Mark) : ms.map (shift []) = ms :=
  List.map_id ms

end Mark

namespace Node

mutual

/-- The marks of a node, in reading order. -/
def marks : Node → List Mark
  | .leaf _ _ (.comment c _) => [⟨[], c⟩]
  | .leaf _ _ _ => []
  | .branch _ _ shape args content =>
    (marksAll args).map (Mark.shift (ink shape.opening)) ++
      (marksAll content).map (Mark.shift (ink shape.opening ++ ink (rawAll args)))

/-- The marks of a sequence, in reading order. -/
def marksAll : List Node → List Mark
  | [] => []
  | n :: ns => marks n ++ (marksAll ns).map (Mark.shift (ink n.raw))

end

theorem marks_of_isSpace {n : Node} (h : n.isSpace = true) : n.marks = [] := by
  unfold isSpace at h
  split at h
  · rfl
  · rfl
  · cases h

theorem marksAll_of_isSpace {ns : List Node} (h : ∀ n ∈ ns, n.isSpace = true) : marksAll ns = [] := by
  induction ns with
  | nil => rfl
  | cons n ns ih =>
    obtain ⟨hn, hns⟩ := List.forall_mem_cons.1 h
    rw [marksAll, marks_of_isSpace hn, ih hns]
    rfl

/-! ## marks and pieces -/

end Node

/-- The comment of a mark is a piece of its own, and a line break follows it. -/
def Mark.Cuts (ps : List Bytes) (m : Mark) : Prop :=
  ∃ qs rs, ps = qs ++ (Byte.percent :: m.comment.content) :: rs ∧ ink qs.flatten = m.before ∧
    BreaksPieces rs

namespace Mark

theorem Cuts.append {ps : List Bytes} {m : Mark} (h : m.Cuts ps) (more : List Bytes) :
    m.Cuts (ps ++ more) := by
  obtain ⟨qs, rs, rfl, hink, hbreaks⟩ := h
  exact ⟨qs, rs ++ more, by simp, hink, hbreaks.append more⟩

theorem Cuts.shift {ps : List Bytes} {m : Mark} (h : m.Cuts ps) (front : List Bytes) :
    (m.shift (ink front.flatten)).Cuts (front ++ ps) := by
  obtain ⟨qs, rs, rfl, hink, hbreaks⟩ := h
  exact ⟨front ++ qs, rs, by simp [Mark.shift], by simp [Mark.shift, hink], hbreaks⟩

/-- The text of the pieces, cut at the percent sign and at the line break. -/
theorem Cuts.text {ps : List Bytes} {m : Mark} (h : m.Cuts ps) :
    ∃ s t, ps.flatten = s ++ Byte.percent :: (m.comment.content ++ t) ∧ ink s = m.before ∧
      BreaksLine t := by
  obtain ⟨qs, rs, rfl, hink, hbreaks⟩ := h
  exact ⟨qs.flatten, rs.flatten, by simp, hink, breaksLine_flatten hbreaks⟩

end Mark

namespace Node

theorem linked_of_comment?_eq_none {closed : Bool} {ns : List Node} (h : ∀ n ∈ ns, n.comment? = none) :
    Linked closed ns := by
  induction ns with
  | nil => trivial
  | cons n ns ih =>
    obtain ⟨hn, hns⟩ := List.forall_mem_cons.1 h
    refine ⟨?_, ih hns⟩
    unfold Leads
    split
    · cases hn
    · trivial

/-- A comment of a closed sequence cuts the pieces of the sequence from it on. -/
theorem cuts_comment {s : Span} {hints : Hints} {c : Comment} {before : Bool} {ns : List Node}
    (hsound : (leaf s hints (.comment c before)).Sound)
    (hfenced : (leaf s hints (.comment c before)).Fenced)
    (hleads : (leaf s hints (.comment c before)).Leads true ns) :
    (⟨[], c⟩ : Mark).Cuts (rawPiecesAll (leaf s hints (.comment c before) :: ns)) := by
  refine ⟨c.leading.linePieces, c.suffix.linePieces ++ rawPiecesAll ns, ?_, ?_, hleads.2 rfl⟩
  · have hpiece : linePieces (Byte.percent :: c.content) = [Byte.percent :: c.content] :=
      linePieces_of_line (by simp) (List.not_mem_cons_of_ne_of_not_mem (by decide) hfenced)
    simp [rawPiecesAll, rawPieces, Leaf.rawPieces, hpiece]
  · rw [Bytes.flatten_linePieces]
    exact hsound.1

mutual

/-- **Comments cut the pieces of a fenced node.** -/
theorem cuts_rawPieces : ∀ n : Node, Each Sound n → Each Fenced n → n.comment? = none →
    ∀ m ∈ n.marks, m.Cuts n.rawPieces
  | .leaf s hints l, _, _, hcomment => by
    intro m hm
    cases l with
    | comment c before => cases hcomment
    | _ => cases hm
  | .branch s hints shape args content, hsound, hfenced, _ => by
    intro m hm
    obtain ⟨-, hsoundArgs, hsoundContent⟩ := each_branch_iff.1 hsound
    obtain ⟨⟨-, hargs, hlinked⟩, hfencedArgs, hfencedContent⟩ := each_branch_iff.1 hfenced
    rw [rawPieces, List.append_assoc, List.append_assoc]
    rw [marks, ← Shape.flatten_openingPieces] at hm
    rcases List.mem_append.1 hm with hm | hm
    · obtain ⟨k, hk, rfl⟩ := List.mem_map.1 hm
      have hcuts := cuts_rawPiecesAll args hsoundArgs hfencedArgs (linked_of_comment?_eq_none hargs) k hk
      exact (hcuts.append _).shift _
    · obtain ⟨k, hk, rfl⟩ := List.mem_map.1 hm
      have hcuts := cuts_rawPiecesAll content hsoundContent hfencedContent hlinked k hk
      simpa [rawAll] using (hcuts.append shape.closingPieces).shift (shape.openingPieces ++ rawPiecesAll args)

theorem cuts_rawPiecesAll : ∀ ns : List Node, All Sound ns → All Fenced ns → Linked true ns →
    ∀ m ∈ marksAll ns, m.Cuts (rawPiecesAll ns)
  | [], _, _, _ => by
    intro m hm
    cases hm
  | n :: ns, hsound, hfenced, hlinked => by
    obtain ⟨hsoundHead, hsoundTail⟩ := all_cons_iff.1 hsound
    obtain ⟨hfencedHead, hfencedTail⟩ := all_cons_iff.1 hfenced
    intro m hm
    rw [marksAll] at hm
    rcases List.mem_append.1 hm with hm | hm
    · cases hcomment : n.comment? with
      | none => exact (cuts_rawPieces n hsoundHead hfencedHead hcomment m hm).append _
      | some c =>
        unfold comment? at hcomment
        split at hcomment
        · cases List.mem_singleton.1 hm
          exact cuts_comment hsoundHead.self hfencedHead.self hlinked.1
        · cases hcomment
    · obtain ⟨k, hk, rfl⟩ := List.mem_map.1 hm
      exact (cuts_rawPiecesAll ns hsoundTail hfencedTail hlinked.2 k hk).shift n.rawPieces

end

/-! ## marks and offsets -/

/-- Where the arguments and the content of a tiled branch are. -/
theorem Tiled.tiles {s : Span} {h : Hints} {shape : Shape} {args content : List Node}
    (htiled : (branch s h shape args content).Tiled) :
    ∃ mid hi, Tiles (s.start + shape.opening.length) args mid ∧ Tiles mid content hi := by
  cases shape with
  | document =>
    obtain ⟨rfl, hcontent⟩ := htiled
    exact ⟨_, _, rfl, hcontent⟩
  | group =>
    obtain ⟨rfl, hcontent⟩ := htiled
    exact ⟨_, _, rfl, hcontent⟩
  | argument space opening closing =>
    obtain ⟨rfl, hcontent⟩ := htiled
    refine ⟨_, s.stop - closing.length, rfl, ?_⟩
    rw [Shape.opening, List.length_append, ← Nat.add_assoc]
    exact hcontent
  | command escape name =>
    obtain ⟨rfl, hargs⟩ := htiled
    exact ⟨_, _, hargs, rfl⟩
  | environment name =>
    obtain ⟨mid, hargs, hcontent⟩ := htiled
    exact ⟨mid, _, hargs, hcontent⟩
  | mathEnvironment name =>
    obtain ⟨mid, hargs, hcontent⟩ := htiled
    exact ⟨mid, _, hargs, hcontent⟩
  | verbatim name body =>
    obtain ⟨rfl, mid, hargs, -⟩ := htiled
    exact ⟨mid, _, hargs, rfl⟩
  | displayMath opening closing =>
    obtain ⟨rfl, hcontent⟩ := htiled
    exact ⟨_, _, rfl, hcontent⟩
  | inlineMath opening closing =>
    obtain ⟨rfl, hcontent⟩ := htiled
    exact ⟨_, _, rfl, hcontent⟩

/-- The source up to a place inside a faithful node. -/
theorem take_of_raw {src s t : Bytes} {n : Node} (h : n.FaithfulTo src) (hraw : n.raw = s ++ t) :
    src.take (n.span.start + s.length) = src.take n.span.start ++ s := by
  have hslice : (src.drop n.span.start).take (n.span.stop - n.span.start) = s ++ t := h.symm.trans hraw
  have hfront : s <+: src.drop n.span.start :=
    (List.prefix_append s t).trans (hslice ▸ List.take_prefix _ _)
  rw [List.take_add, ← List.prefix_iff_eq_take.1 hfront]

/-- The source up to the end of faithful nodes that lie end to end. -/
theorem take_of_tiles {src : Bytes} {lo hi : Nat} {ns : List Node} (htiles : Tiles lo ns hi)
    (h : All (FaithfulTo src) ns) : src.take hi = src.take lo ++ rawAll ns := by
  induction ns generalizing lo with
  | nil =>
    cases htiles
    simp
  | cons n ns ih =>
    obtain ⟨hstart, hroom, htail⟩ := htiles
    obtain ⟨hn, hns⟩ := all_cons_iff.1 h
    have hraw : n.raw = (src.drop n.span.start).take (n.span.stop - n.span.start) := hn.self
    rw [ih htail hns, rawAll_cons, ← List.append_assoc, hraw, hstart, ← List.take_add]
    congr 2
    omega

/-- The comment of a faithful leaf has its mark right there. -/
theorem ink_take_comment {src : Bytes} {s : Span} {hints : Hints} {c : Comment} {before : Bool}
    (h : (leaf s hints (.comment c before)).FaithfulTo src)
    (hsound : (leaf s hints (.comment c before)).Sound) :
    ink (src.take (s.start + c.leading.length)) = ink (src.take s.start) := by
  have htake := take_of_raw h (s := c.leading) (t := Byte.percent :: c.content ++ c.suffix)
    (by simp [raw_leaf, Leaf.raw_comment, Comment.raw])
  rw [span] at htake
  rw [htake, Bytes.ink_append, show ink c.leading = [] from hsound.1, List.append_nil]

/-- What is known of every node of a tree that was read from a source. -/
structure Located (src : Bytes) (n : Node) : Prop where
  sound : n.Sound
  tiled : n.Tiled
  faithful : n.FaithfulTo src

theorem All.faithful {src : Bytes} {ns : List Node} (h : All (Located src) ns) :
    All (FaithfulTo src) ns :=
  fun n hn => (h n hn).faithful

/-- A comment is marked in a tree if the tree has a mark for it, with the ink of the source from `lo` up to
    its percent sign. -/
def Marked (src : Bytes) (lo : Nat) (ms : List Mark) (n : Node) : Prop :=
  ∀ c, n.comment? = some c → ∃ m ∈ ms, m.comment = c ∧
    ink (src.take (n.span.start + c.leading.length)) = ink (src.take lo) ++ m.before

theorem Marked.shift {src s : Bytes} {lo hi : Nat} {ms : List Mark} {n : Node} (h : n.Marked src hi ms)
    (hlo : ink (src.take hi) = ink (src.take lo) ++ s) : n.Marked src lo (ms.map (Mark.shift s)) := by
  intro c hc
  obtain ⟨m, hm, hcomment, hink⟩ := h c hc
  exact ⟨m.shift s, List.mem_map_of_mem hm, hcomment, by simp [hink, hlo, Mark.shift]⟩

theorem Marked.mono {src : Bytes} {lo : Nat} {ms ks : List Mark} {n : Node} (h : n.Marked src lo ms)
    (hsub : ms ⊆ ks) : n.Marked src lo ks := by
  intro c hc
  obtain ⟨m, hm, hmark⟩ := h c hc
  exact ⟨m, hsub hm, hmark⟩

mutual

/-- **Every comment below a node is marked.** -/
theorem exists_mark {src : Bytes} : ∀ n : Node, Each (Located src) n →
    Each (Marked src n.span.start n.marks) n
  | .leaf s hints l, h => by
    refine each_leaf fun c hc => ?_
    cases l with
    | comment c before =>
      cases hc
      refine ⟨⟨[], c⟩, by simp [marks], rfl, ?_⟩
      rw [List.append_nil]
      exact ink_take_comment h.self.faithful h.self.sound
    | _ => cases hc
  | .branch s hints shape args content, h => by
    obtain ⟨hself, hargs, hcontent⟩ := each_branch_iff.1 h
    obtain ⟨mid, hi, htilesArgs, htilesContent⟩ := hself.tiled.tiles
    have hopening : src.take (s.start + shape.opening.length) = src.take s.start ++ shape.opening := by
      refine take_of_raw hself.faithful (t := rawAll args ++ rawAll content ++ shape.closing) ?_
      simp [raw_branch]
    have hmid := take_of_tiles htilesArgs hargs.faithful
    refine each_branch (fun c hc => by cases hc) ?_ ?_
    · intro n hn
      refine ((exists_mark_all args hargs htilesArgs n hn).shift ?_).mono (List.subset_append_left _ _)
      rw [hopening, Bytes.ink_append]
      rfl
    · intro n hn
      refine ((exists_mark_all content hcontent htilesContent n hn).shift ?_).mono
        (List.subset_append_right _ _)
      rw [hmid, hopening]
      simp [span]

theorem exists_mark_all {src : Bytes} : ∀ ns : List Node, All (Located src) ns → ∀ {lo hi : Nat},
    Tiles lo ns hi → All (Marked src lo (marksAll ns)) ns
  | [], _, _, _, _ => all_nil _
  | n :: ns, h, lo, hi, htiles => by
    obtain ⟨hn, hns⟩ := all_cons_iff.1 h
    obtain ⟨hstart, hroom, htail⟩ := htiles
    have hone : Tiles lo [n] n.span.stop := ⟨hstart, hroom, rfl⟩
    have hstop := take_of_tiles hone (all_cons hn (all_nil _)).faithful
    refine all_cons ?_ ?_
    · intro m hm
      exact (hstart ▸ exists_mark n hn m hm).mono (List.subset_append_left _ _)
    · intro m hm
      refine ((exists_mark_all ns hns htail m hm).shift ?_).mono (List.subset_append_right _ _)
      rw [hstop]
      simp

end

/-! ## hints -/

mutual

/-- Hints do not move comments. -/
theorem marks_annotate (r : Registry) : ∀ n : Node, (n.annotate r).marks = n.marks
  | .leaf _ _ l => by cases l <;> rfl
  | .branch _ _ _ args content => by
    rw [annotate, marks, marks, marksAll_annotateAll r args, marksAll_annotateAll r content, rawAll,
      rawAll, rawPiecesAll_annotateAll]

theorem marksAll_annotateAll (r : Registry) :
    ∀ ns : List Node, marksAll (annotateAll r ns) = marksAll ns
  | [] => rfl
  | n :: ns => by
    rw [annotateAll, marksAll, marksAll, marks_annotate r n, marksAll_annotateAll r ns, raw, raw,
      rawPieces_annotate]

end

end Node

end TexTidy
