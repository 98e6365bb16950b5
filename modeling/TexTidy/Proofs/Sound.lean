import Mathlib.Data.List.TakeWhile
import TexTidy.Proofs.Derivation
import TexTidy.Proofs.Ink
import TexTidy.Proofs.Tree
import TexTidy.Registry.Hints

/-!
# TexTidy.Proofs.Sound

What a printer may rely on. `Node.Sound` lists, for each kind of node, what holds of every node that was
read: white space is white, a comment is surrounded by white space only, and the parts of a branch that
its shape has no use for are empty. Printing looks at nothing else, so these are the only facts about the
parser that a statement about printing has to use.

`Derives.sound` shows that all nodes that are read are sound, and `each_sound_annotate` that layout hints
do not change that.
-/

namespace TexTidy

open Bytes (ink)

/-! ## sound nodes -/

/-- White space is white. -/
def Leaf.Sound : Leaf → Prop
  | .space raw => ink raw = []
  | .parbreak raw => ink raw = []
  | .comment c _ => ink c.leading = [] ∧ ink c.suffix = []
  | _ => True

/-- What a shape says about the parts of its branch. -/
def Shape.Sound (args content : List Node) : Shape → Prop
  | .document => args = []
  | .argument space opening closing => args = [] ∧ ink space = [] ∧ (opening = [] → closing = [])
  | .command _ _ => content = []
  | .verbatim _ _ => content = []
  | .displayMath _ _ => args = []
  | .inlineMath opening closing => args = [] ∧ (opening = [Byte.dollar] → closing = [Byte.dollar])
  | _ => True

/-- What holds of a node that was read. -/
def Node.Sound : Node → Prop
  | .leaf _ _ l => l.Sound
  | .branch _ _ shape args content => shape.Sound args content

/-! ## the ink of sound nodes -/

/-- A sound comment has the ink of what stands from its percent sign on. -/
theorem Comment.ink_raw {c : Comment} (hleading : ink c.leading = []) (hsuffix : ink c.suffix = []) :
    ink c.raw = ink (Byte.percent :: c.content) := by
  rw [Comment.raw, Bytes.ink_append, Bytes.ink_append, hleading, hsuffix, List.append_nil,
    List.nil_append]

namespace Node

theorem isSpace_of_isPlainSpace {n : Node} (h : n.isPlainSpace = true) : n.isSpace = true := by
  unfold isPlainSpace at h
  split at h
  · rfl
  · cases h

theorem ink_raw_of_isSpace {n : Node} (h : n.Sound) (hspace : n.isSpace = true) : ink n.raw = [] := by
  unfold isSpace at hspace
  split at hspace
  · simpa [raw_leaf, Leaf.raw, Leaf.rawPieces] using (show ink _ = [] from h)
  · simpa [raw_leaf, Leaf.raw, Leaf.rawPieces] using (show ink _ = [] from h)
  · cases hspace

theorem exists_of_comment? {n : Node} {c : Comment} (h : n.comment? = some c) :
    ∃ span hints before, n = .leaf span hints (.comment c before) := by
  unfold comment? at h
  split at h
  · cases h
    exact ⟨_, _, _, rfl⟩
  · cases h

theorem isSpace_of_comment? {n : Node} {c : Comment} (h : n.comment? = some c) : n.isSpace = false := by
  obtain ⟨span, hints, before, rfl⟩ := exists_of_comment? h
  rfl

theorem ink_raw_of_comment? {n : Node} {c : Comment} (h : n.Sound) (hc : n.comment? = some c) :
    ink n.raw = ink (Byte.percent :: c.content) := by
  obtain ⟨span, hints, before, rfl⟩ := exists_of_comment? hc
  rw [raw_leaf, Leaf.raw_comment]
  exact Comment.ink_raw h.1 h.2

/-- A sequence of white space has no ink. -/
theorem ink_rawAll_of_isSpace {ns : List Node} (h : All Sound ns)
    (hspace : ∀ n ∈ ns, n.isSpace = true) : ink (rawAll ns) = [] := by
  induction ns with
  | nil => rfl
  | cons n ns ih =>
    obtain ⟨hn, hns⟩ := all_cons_iff.1 h
    rw [rawAll_cons, Bytes.ink_append, ink_raw_of_isSpace hn.self (hspace n (by simp)),
      ih hns fun m hm => hspace m (by simp [hm])]
    rfl

/-- A sequence in three parts, of which the outer ones are white space. -/
theorem trim_eq (ns : List Node) :
    ∃ front back, ns = front ++ trim ns ++ back ∧ (∀ n ∈ front, n.isSpace = true) ∧
      ∀ n ∈ back, n.isSpace = true := by
  refine ⟨ns.takeWhile isSpace, ((ns.dropWhile isSpace).reverse.takeWhile isSpace).reverse, ?_, ?_, ?_⟩
  · rw [trim, List.append_assoc, ← List.reverse_append, List.takeWhile_append_dropWhile,
      List.reverse_reverse, List.takeWhile_append_dropWhile]
  · exact fun n hn => List.all_eq_true.1 List.all_takeWhile n hn
  · exact fun n hn => List.all_eq_true.1 List.all_takeWhile n (List.mem_reverse.1 hn)

/-- The last node that stays is the last one that is no white space. -/
theorem getLast?_trim (ns : List Node) : (trim ns).getLast? = ns.reverse.find? fun n => !n.isSpace := by
  have hfront : (ns.takeWhile isSpace).reverse.find? (fun n => !n.isSpace) = none := by
    refine List.find?_eq_none.2 fun n hn => ?_
    simp [List.all_eq_true.1 List.all_takeWhile n (List.mem_reverse.1 hn)]
  conv => rhs; rw [← List.takeWhile_append_dropWhile (p := isSpace) (l := ns)]
  rw [List.reverse_append, List.find?_append, hfront, Option.or_none, trim, List.getLast?_reverse,
    List.find?_eq_head?_dropWhile_not]
  simp

/-- Only white space can be trimmed away altogether. -/
theorem all_of_trim {ns : List Node} (h : trim ns = []) : ∀ n ∈ ns, n.isSpace = true := by
  obtain ⟨front, back, hns, hfront, hback⟩ := trim_eq ns
  rw [h, List.append_nil] at hns
  rw [hns]
  exact fun n hn => (List.mem_append.1 hn).elim (hfront n) (hback n)

theorem all_trim {P : Node → Prop} {ns : List Node} (h : All P ns) : All P (trim ns) := by
  obtain ⟨front, back, hns, -, -⟩ := trim_eq ns
  rw [hns] at h
  exact (all_append_iff.1 (all_append_iff.1 h).1).2

/-- Trimming a sound sequence keeps the ink. -/
theorem ink_rawAll_trim {ns : List Node} (h : All Sound ns) :
    ink (rawAll (trim ns)) = ink (rawAll ns) := by
  obtain ⟨front, back, hns, hfront, hback⟩ := trim_eq ns
  rw [hns] at h
  obtain ⟨hleft, hright⟩ := all_append_iff.1 h
  have hfront := ink_rawAll_of_isSpace (all_append_iff.1 hleft).1 hfront
  have hback := ink_rawAll_of_isSpace hright hback
  conv => rhs; rw [hns]
  simp [hfront, hback]

/-- What trims to nothing has no ink. -/
theorem ink_rawAll_of_trim_eq_nil {ns : List Node} (h : All Sound ns) (htrim : trim ns = []) :
    ink (rawAll ns) = [] := by
  rw [← ink_rawAll_trim h, htrim]
  rfl

end Node

/-! ## hints -/

namespace Node

mutual

/-- Hints do not change the pieces of a node. -/
theorem rawPieces_annotate (r : Registry) : ∀ n : Node, (n.annotate r).rawPieces = n.rawPieces
  | .leaf _ _ _ => rfl
  | .branch _ _ _ args content => by
    rw [annotate, rawPieces, rawPieces, rawPiecesAll_annotateAll r args,
      rawPiecesAll_annotateAll r content]

theorem rawPiecesAll_annotateAll (r : Registry) :
    ∀ ns : List Node, rawPiecesAll (annotateAll r ns) = rawPiecesAll ns
  | [] => rfl
  | n :: ns => by
    rw [annotateAll, rawPiecesAll, rawPiecesAll, rawPieces_annotate r n,
      rawPiecesAll_annotateAll r ns]

end

theorem annotateAll_eq_nil {r : Registry} {ns : List Node} (h : ns = []) : annotateAll r ns = [] := by
  rw [h]
  rfl

theorem sound_annotate {r : Registry} {n : Node} (h : n.Sound) : (n.annotate r).Sound := by
  cases n with
  | leaf s hints l => exact h
  | branch s hints shape args content =>
    cases shape with
    | document => exact annotateAll_eq_nil h
    | argument space opening closing => exact ⟨annotateAll_eq_nil h.1, h.2⟩
    | command escape name => exact annotateAll_eq_nil h
    | verbatim name body => exact annotateAll_eq_nil h
    | displayMath opening closing => exact annotateAll_eq_nil h
    | inlineMath opening closing => exact ⟨annotateAll_eq_nil h.1, h.2⟩
    | _ => trivial

mutual

/-- Hints keep a property of all nodes that they keep of one. -/
theorem each_annotate {P : Node → Prop} (r : Registry) (hP : ∀ n, P n → P (n.annotate r)) :
    ∀ n : Node, Each P n → Each P (n.annotate r)
  | .leaf s hints l, h => each_leaf (hP _ h.self)
  | .branch s hints shape args content, h => by
    obtain ⟨hself, hargs, hcontent⟩ := each_branch_iff.1 h
    exact each_branch (hP _ hself) (all_annotateAll r hP args hargs)
      (all_annotateAll r hP content hcontent)

theorem all_annotateAll {P : Node → Prop} (r : Registry) (hP : ∀ n, P n → P (n.annotate r)) :
    ∀ ns : List Node, All P ns → All P (annotateAll r ns)
  | [], _ => all_nil _
  | n :: ns, h => by
    obtain ⟨hn, hns⟩ := all_cons_iff.1 h
    exact all_cons (each_annotate r hP n hn) (all_annotateAll r hP ns hns)

end

/-- Hints keep trees sound. -/
theorem each_sound_annotate (r : Registry) (n : Node) (h : Each Sound n) : Each Sound (n.annotate r) :=
  each_annotate (P := Sound) r (fun _ => sound_annotate) n h

end Node

/-! ## tokens -/

namespace Token

/-- The white space of a token is white. -/
def Kind.Sound : Kind → Prop
  | .space raw => ink raw = []
  | .parbreak raw => ink raw = []
  | .comment c => ink c.leading = [] ∧ ink c.suffix = []
  | _ => True

theorem ink_takeWhile {p : UInt8 → Bool} (hp : ∀ b, p b = true → isBlank b = true) (s : Bytes) :
    ink (s.takeWhile p) = [] :=
  Bytes.ink_eq_nil_iff.2 fun b hb => hp b (List.all_eq_true.1 List.all_takeWhile b hb)

theorem ink_lineBreak (s : Bytes) : ink (lineBreak s) = [] := by
  unfold lineBreak
  split
  · decide
  · split <;> decide

theorem ink_commentSuffix (s : Bytes) : ink (commentSuffix s) = [] := by
  have hbreak := ink_lineBreak s
  unfold commentSuffix
  generalize lineBreak s = br at hbreak
  split
  · rfl
  · dsimp only
    split
    · rfl
    · split
      · rfl
      · rw [Bytes.ink_append, hbreak, ink_takeWhile fun _ => Bytes.isBlank_of_isPad]
        rfl

theorem sound_scanBlank (inked : Bool) (s : Bytes) : (scanBlank inked s).Sound := by
  have hrun : ink (s.takeWhile isBlank) = [] := ink_takeWhile (fun _ h => h) s
  unfold scanBlank
  dsimp only
  split
  · exact ⟨hrun, ink_commentSuffix _⟩
  · split <;> exact hrun

theorem sound_single? {c : UInt8} {k : Kind} (h : single? c = some k) : k.Sound := by
  unfold single? at h
  repeat' split at h
  all_goals cases h
  all_goals trivial

theorem sound_scan? {inked : Bool} {s : Bytes} {k : Kind} (h : scan? inked s = some k) :
    k.Sound := by
  cases s with
  | nil => cases h; trivial
  | cons c s =>
    rw [scan?] at h
    split at h
    · next hk => cases h; exact sound_single? hk
    split at h
    · cases h
      exact ⟨rfl, ink_commentSuffix _⟩
    split at h
    · cases h
      unfold scanDollar
      split <;> trivial
    split at h
    · split at h
      · cases h
      · cases h; trivial
    split at h
    · cases h; exact sound_scanBlank inked (c :: s)
    · cases h; trivial

end Token

theorem Cursor.token_sound {c d : Cursor} {t : Token} (h : c.token = .ok (t, d)) : t.kind.Sound := by
  unfold Cursor.token at h
  split at h
  · next hk =>
    cases h
    exact Token.sound_scan? hk
  · cases h

theorem Cursor.ink_skipSpace (c : Cursor) : ink c.skipSpace.1 = [] := by
  unfold Cursor.skipSpace
  dsimp only
  split
  · rfl
  · exact Token.ink_takeWhile (fun _ h => h) _

/-! ## derivations -/

namespace Parse

open Node (Each All Sound)

/-- Whatever is read is sound. -/
def Judgement.Sound : Judgement → Prop
  | .sequence _ _ _ s => All Node.Sound s.nodes
  | .item _ _ n _ => Each Node.Sound n
  | .arguments _ _ _ args _ => All Node.Sound args

theorem sound_plainLeaf? {mode : Mode} {k : Token.Kind} {l : Leaf} (hk : k.Sound)
    (h : plainLeaf? mode k = some l) : l.Sound := by
  rcases plainLeaf?_cases h with rfl | ⟨raw, rfl, rfl⟩ | ⟨raw, rfl, rfl⟩ | ⟨c, rfl, rfl⟩
  · trivial
  all_goals exact hk

theorem sound_formula? {k : Token.Kind} {closer : Closer} {shape : Shape} {content : List Node}
    (h : formula? k = some (closer, shape)) : shape.Sound [] content := by
  rcases formula?_cases h with ⟨-, -, rfl⟩ | ⟨-, -, rfl⟩ | ⟨-, -, rfl⟩
  · rfl
  · exact ⟨rfl, by decide⟩
  · rfl

theorem sound_environmentShape (spec : EnvironmentSpec) (name : Bytes) (args content : List Node) :
    (environmentShape spec name).Sound args content := by
  unfold environmentShape
  split <;> trivial

/-- An argument is sound if the space before it is white and its content is sound. -/
theorem each_sound_argument {s : Span} {space opening closing : Bytes} {nodes : List Node}
    (hspace : ink space = []) (hclosing : opening = [] → closing = []) (hnodes : All Node.Sound nodes) :
    Each Node.Sound (.branch s {} (.argument space opening closing) [] nodes) :=
  Node.each_branch ⟨rfl, hspace, hclosing⟩ (Node.all_nil _) hnodes

/-- **Every node that was read is sound.** -/
theorem Derives.sound {r : Registry} {j : Judgement} (h : Derives r j) : j.Sound := by
  induction h with
  | stop token closed => exact Node.all_nil _
  | next token pass more head rest ihHead ihRest => exact Node.all_link id ihHead ihRest
  | leaf token plain => exact Node.each_leaf (sound_plainLeaf? (Cursor.token_sound token) plain)
  | script token kind sign taken ih => exact Node.each_branch rfl ih (Node.all_nil _)
  | group token kind content closed ih => exact Node.each_branch trivial (Node.all_nil _) ih
  | formula token kind content closed ih =>
    exact Node.each_branch (sound_formula? kind) (Node.all_nil _) ih
  | dollar token kind content closed half ih =>
    exact Node.each_branch ⟨rfl, id⟩ (Node.all_nil _) ih
  | emptyDollars token kind => exact Node.each_branch ⟨rfl, id⟩ (Node.all_nil _) (Node.all_nil _)
  | environment token kind opening nodes taken content closed closing ihTaken ihContent =>
    exact Node.each_branch (sound_environmentShape _ _ _ _) ihTaken ihContent
  | verbatim token kind opening raw taken content ih => exact Node.each_branch rfl ih (Node.all_nil _)
  | verb token kind known free starred star_eq content => exact Node.each_leaf trivial
  | command token kind known free taken ih => exact Node.each_branch rfl ih (Node.all_nil _)
  | done => exact Node.all_nil _
  | absent missing others ih => exact ih
  | star sign others ih =>
    exact Node.all_cons (each_sound_argument rfl id
      (Node.all_cons (Node.each_leaf trivial) (Node.all_nil _))) ih
  | optional sign content closed others ihContent ihOthers =>
    exact Node.all_cons (each_sound_argument rfl (by decide) ihContent) ihOthers
  | @braced _ _ c _ _ _ sign content closed others ihContent ihOthers =>
    exact Node.all_cons (each_sound_argument (Cursor.ink_skipSpace c) (by decide) ihContent) ihOthers
  | @bareCommand _ _ c _ _ _ _ _ token kind known free others ih =>
    exact Node.all_cons (each_sound_argument (Cursor.ink_skipSpace c) id (Node.all_cons
      (Node.each_branch rfl (Node.all_nil _) (Node.all_nil _)) (Node.all_nil _))) ih
  | @bareCharacter _ _ c _ _ _ _ _ sign inert content others ih =>
    exact Node.all_cons (each_sound_argument (Cursor.ink_skipSpace c) id
      (Node.all_cons (Node.each_leaf trivial) (Node.all_nil _))) ih

/-- Every node of a document is sound. -/
theorem sound_of_document {r : Registry} {src : Bytes} {tree : Node}
    (h : document r src = .ok tree) : Each Node.Sound tree := by
  obtain ⟨body, hbody, rfl⟩ := derives_of_document h
  exact Node.each_branch rfl (Node.all_nil _) hbody.sound

end Parse

end TexTidy
