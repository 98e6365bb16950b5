import TexTidy.Node.Order
import TexTidy.Node.Raw
import TexTidy.Parse

/-!
# TexTidy.Proofs.Tree

Facts about trees that need no parser: what the raw text of a node is made of, and what it takes for a
property to hold of all nodes of a tree.

`Node.Each P n` says that `P` holds of every node of the tree `n`, itself included, and `Node.All P ns`
says the same of a sequence. Both go through the nodes in reading order, arguments before content.
-/

namespace TexTidy

/-! ## raw text -/

/-- Cutting a text at its newlines loses nothing. -/
@[simp] theorem Bytes.flatten_linePieces (s : Bytes) : (linePieces s).flatten = s := by
  induction s with
  | nil => rfl
  | cons c s ih =>
    rw [linePieces]
    split
    · simp [ih]
    · split
      · next hnil =>
        rw [hnil] at ih
        simp [← ih]
      · next p ps hcons =>
        rw [hcons] at ih
        split <;> simp [← ih]

namespace Shape

/-- The text that opens a branch. -/
def opening : Shape → Bytes
  | .document => []
  | .group => [Byte.openBrace]
  | .argument space opening _ => space ++ opening
  | .command escape name => escape ++ name
  | .environment name => Cursor.beginMarker name
  | .mathEnvironment name => Cursor.beginMarker name
  | .verbatim name _ => Cursor.beginMarker name
  | .displayMath opening _ => opening
  | .inlineMath opening _ => opening

/-- The text that closes a branch. A verbatim body counts as part of it. -/
def closing : Shape → Bytes
  | .document => []
  | .group => [Byte.closeBrace]
  | .argument _ _ closing => closing
  | .command _ _ => []
  | .environment name => Cursor.endMarker name
  | .mathEnvironment name => Cursor.endMarker name
  | .verbatim name body => body ++ Cursor.endMarker name
  | .displayMath _ closing => closing
  | .inlineMath _ closing => closing

theorem flatten_openingPieces (shape : Shape) : shape.openingPieces.flatten = shape.opening := by
  cases shape <;> simp [openingPieces, opening]

theorem flatten_closingPieces (shape : Shape) : shape.closingPieces.flatten = shape.closing := by
  cases shape <;> simp [closingPieces, closing]

end Shape

/-- The text of a leaf. -/
def Leaf.raw (l : Leaf) : Bytes :=
  l.rawPieces.flatten

theorem Leaf.raw_comment (c : Comment) (before : Bool) : (Leaf.comment c before).raw = c.raw := by
  simp [Leaf.raw, Leaf.rawPieces, Comment.raw]

namespace Node

@[simp] theorem rawAll_nil : rawAll [] = [] := rfl

@[simp] theorem rawAll_cons (n : Node) (ns : List Node) : rawAll (n :: ns) = n.raw ++ rawAll ns := by
  simp [rawAll, raw, rawPiecesAll]

@[simp] theorem rawAll_append (ms ns : List Node) : rawAll (ms ++ ns) = rawAll ms ++ rawAll ns := by
  induction ms with
  | nil => rfl
  | cons m ms ih => simp [ih]

theorem raw_leaf (s : Span) (h : Hints) (l : Leaf) : (leaf s h l).raw = l.raw := by
  simp [raw, rawPieces, Leaf.raw]

theorem raw_branch (s : Span) (h : Hints) (shape : Shape) (args content : List Node) :
    (branch s h shape args content).raw =
      shape.opening ++ rawAll args ++ rawAll content ++ shape.closing := by
  simp [raw, rawAll, rawPieces, Shape.flatten_openingPieces, Shape.flatten_closingPieces]

/-- Whether a paragraph break follows a comment does not change its text. -/
theorem rawAll_link (n : Node) (ns : List Node) : rawAll (Parse.link n ns) = n.raw ++ rawAll ns := by
  unfold Parse.link
  split
  · simp [raw_leaf, Leaf.raw_comment]
  · simp

end Node

/-! ## properties of all nodes -/

namespace Node

variable {P : Node → Prop}

/-- The property holds of every node of a tree. -/
def Each (P : Node → Prop) (n : Node) : Prop :=
  ∀ m ∈ n.preorder, P m

/-- The property holds of every node of a sequence of trees. -/
def All (P : Node → Prop) (ns : List Node) : Prop :=
  ∀ m ∈ preorderAll ns, P m

theorem all_nil (P : Node → Prop) : All P [] := by
  intro m hm
  cases hm

theorem all_cons_iff {n : Node} {ns : List Node} : All P (n :: ns) ↔ Each P n ∧ All P ns := by
  simp only [All, Each, preorderAll, List.mem_append]
  exact ⟨fun h => ⟨fun m hm => h m (.inl hm), fun m hm => h m (.inr hm)⟩,
    fun h m hm => hm.elim (h.1 m) (h.2 m)⟩

theorem all_cons {n : Node} {ns : List Node} (hn : Each P n) (hns : All P ns) : All P (n :: ns) :=
  all_cons_iff.2 ⟨hn, hns⟩

theorem all_append_iff {ms ns : List Node} : All P (ms ++ ns) ↔ All P ms ∧ All P ns := by
  induction ms with
  | nil => simp [all_nil]
  | cons m ms ih => simp [all_cons_iff, ih, and_assoc]

theorem each_leaf {s : Span} {h : Hints} {l : Leaf} (hself : P (leaf s h l)) :
    Each P (leaf s h l) := by
  intro m hm
  rw [preorder, List.mem_singleton] at hm
  exact hm ▸ hself

theorem each_branch_iff {s : Span} {h : Hints} {shape : Shape} {args content : List Node} :
    Each P (branch s h shape args content) ↔
      P (branch s h shape args content) ∧ All P args ∧ All P content := by
  simp only [Each, All, preorder, List.mem_cons, List.mem_append]
  refine ⟨fun h => ⟨h _ (.inl rfl), fun m hm => h m (.inr (.inl hm)),
    fun m hm => h m (.inr (.inr hm))⟩, fun h m hm => ?_⟩
  rcases hm with rfl | hm | hm
  · exact h.1
  · exact h.2.1 m hm
  · exact h.2.2 m hm

theorem each_branch {s : Span} {h : Hints} {shape : Shape} {args content : List Node}
    (hself : P (branch s h shape args content)) (hargs : All P args) (hcontent : All P content) :
    Each P (branch s h shape args content) :=
  each_branch_iff.2 ⟨hself, hargs, hcontent⟩

/-- A node has the properties of its tree. -/
theorem Each.self {n : Node} (h : Each P n) : P n := by
  cases n with
  | leaf s hints l => exact h _ (by simp [preorder])
  | branch s hints shape args content => exact (each_branch_iff.1 h).1

theorem All.of_mem {n : Node} {ns : List Node} (h : All P ns) (hn : n ∈ ns) : Each P n := by
  obtain ⟨front, back, rfl⟩ := List.append_of_mem hn
  exact (all_cons_iff.1 (all_append_iff.1 h).2).1

mutual

/-- What holds of every node of a tree holds of every node of its parts. -/
theorem Each.of_mem_preorder : ∀ {n m : Node}, Each P n → m ∈ n.preorder → Each P m
  | .leaf s hints l, m, h, hm => by
    rw [preorder, List.mem_singleton] at hm
    exact hm ▸ h
  | .branch s hints shape args content, m, h, hm => by
    obtain ⟨-, hargs, hcontent⟩ := each_branch_iff.1 h
    rw [preorder, List.mem_cons, List.mem_append] at hm
    rcases hm with rfl | hm | hm
    · exact h
    · exact hargs.of_mem_preorderAll hm
    · exact hcontent.of_mem_preorderAll hm

theorem All.of_mem_preorderAll : ∀ {ns : List Node} {m : Node}, All P ns → m ∈ preorderAll ns → Each P m
  | [], m, _, hm => by cases hm
  | n :: ns, m, h, hm => by
    obtain ⟨hn, hns⟩ := all_cons_iff.1 h
    rw [preorderAll, List.mem_append] at hm
    rcases hm with hm | hm
    · exact hn.of_mem_preorder hm
    · exact hns.of_mem_preorderAll hm

end

/-- Putting a node in front of a sequence keeps a property that does not look at whether a paragraph break
    follows a comment. -/
theorem all_link {n : Node} {ns : List Node}
    (hflag : ∀ {s h c before after}, P (leaf s h (.comment c before)) → P (leaf s h (.comment c after)))
    (hn : Each P n) (hns : All P ns) : All P (Parse.link n ns) := by
  unfold Parse.link
  split
  · exact all_cons (each_leaf (hflag hn.self)) hns
  · exact all_cons hn hns

end Node

end TexTidy
