import TexTidy.Node

/-!
# TexTidy.Node.Order

The nodes of a tree in reading order: a node before its parts, arguments before content. The place of a
node in this order is its number. Numbers tell nodes apart that look the same.

`Neighbours` knows the neighbours of every node in the sequence that holds it.
-/

namespace TexTidy

namespace Node

mutual

/-- The number of nodes in a tree. -/
def size : Node → Nat
  | .leaf _ _ _ => 1
  | .branch _ _ _ args content => 1 + sizeAll args + sizeAll content

/-- The number of nodes in the trees of a sequence. -/
def sizeAll : List Node → Nat
  | [] => 0
  | n :: ns => size n + sizeAll ns

end

mutual

/-- All nodes of a tree in reading order. -/
def preorder : Node → List Node
  | .leaf s h l => [.leaf s h l]
  | .branch s h shape args content =>
    .branch s h shape args content :: (preorderAll args ++ preorderAll content)

/-- All nodes of a sequence in reading order. -/
def preorderAll : List Node → List Node
  | [] => []
  | n :: ns => preorder n ++ preorderAll ns

end

mutual

/-- Replaces the hints of the nodes for which `f` has some, by number; the tree itself has number
    `id`. -/
def override (f : Nat → Option Hints) (id : Nat) : Node → Node
  | .leaf s h l => .leaf s ((f id).getD h) l
  | .branch s h shape args content =>
    .branch s ((f id).getD h) shape (overrideAll f (id + 1) args)
      (overrideAll f (id + 1 + sizeAll args) content)

/-- Replaces hints in a sequence whose first node has number `id`. -/
def overrideAll (f : Nat → Option Hints) (id : Nat) : List Node → List Node
  | [] => []
  | n :: ns => override f id n :: overrideAll f (id + size n) ns

end

end Node

/-- The numbers of the nodes beside a node. -/
structure Siblings where
  previous : Option Nat := none
  next : Option Nat := none
  deriving DecidableEq, Repr

/-- The neighbours of every node below a root. -/
structure Neighbours where
  root : Nat
  links : List (Nat × Siblings)
  deriving DecidableEq, Repr

namespace Neighbours

/-- The number of a node, if it is not an empty place. -/
def number? (id : Nat) (n : Node) : Option Nat :=
  if n.isMissing then none else some id

mutual

/-- The neighbours of the nodes below a node with number `id`. -/
def below (id : Nat) : Node → List (Nat × Siblings)
  | .leaf _ _ _ => []
  | .branch _ _ _ args content =>
    along none (id + 1) args ++ along none (id + 1 + Node.sizeAll args) content

/-- The neighbours of the nodes in and below a sequence, whose first node has number `id` and comes
    after `previous`. -/
def along (previous : Option Nat) (id : Nat) : List Node → List (Nat × Siblings)
  | [] => []
  | n :: ns =>
    let next := ns.head?.bind (number? (id + n.size))
    (id, ⟨previous, next⟩) :: (below id n ++ along (number? id n) (id + n.size) ns)

end

/-- The map of the tree under a node with number `id`. -/
def build (id : Nat) (root : Node) : Neighbours :=
  ⟨id, below id root⟩

/-- The neighbours of a node; a node outside the tree has none. -/
def siblings (m : Neighbours) (id : Nat) : Siblings :=
  (m.links.lookup id).getD {}

/-- The node before a node in its sequence. -/
def previous? (m : Neighbours) (id : Nat) : Option Nat :=
  (m.siblings id).previous

/-- The node after a node in its sequence. -/
def next? (m : Neighbours) (id : Nat) : Option Nat :=
  (m.siblings id).next

/-- Whether a node is the root or stands below it. -/
def contains (m : Neighbours) (id : Nat) : Bool :=
  id == m.root || (m.links.lookup id).isSome

end Neighbours

end TexTidy
