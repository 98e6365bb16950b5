import Mathlib.Logic.ExistsUnique
import Mathlib.Logic.Relation
import TexTidy.Proofs.Definitions
import TexTidy.Proofs.Tree

/-!
# TexTidy.Proofs.Siblings

The map of neighbours is right. What it should know is said by the tree alone: `sequences` are the arguments and the
content of a node, each with the numbers of its nodes, `HasChild` is to stand in one of them, and `Reaches` is to be
found through children of children.

* The numbers in a tree are those from its own number on, each of them once, so what is written to the map is never
  written over (`map_fst_below`).
* What the traversal writes down is, for every sequence under the root and every node in it, the numbers right before
  and right after it (`mem_below_iff_isSequence`). One step of this goes over a sequence (`mem_along_iff`), and the rest
  follows the way from the root to the node.
* A number stands in one sequence only (`IsSequence.unique`).
-/

namespace TexTidy

namespace Node

/-! ## the sequences of a tree -/

/-- The nodes of a sequence with their numbers, the first of which is `id`. -/
def numbered (id : Nat) : List Node → List (Nat × Node)
  | [] => []
  | n :: ns => (id, n) :: numbered (id + n.size) ns

/-- The sequences that a node with number `id` holds: its arguments, then its content. -/
def sequences (id : Nat) : Node → List (List (Nat × Node))
  | .leaf _ _ _ => []
  | .branch _ _ _ args content => [numbered (id + 1) args, numbered (id + 1 + sizeAll args) content]

/-- A node holds another one in one of its sequences. -/
def HasChild (p c : Nat × Node) : Prop :=
  ∃ seq ∈ sequences p.1 p.2, c ∈ seq

/-- A node is found from another one through children. -/
def Reaches : Nat × Node → Nat × Node → Prop :=
  Relation.ReflTransGen HasChild

/-- The sequence is held by a node of the tree under `root`. -/
def IsSequence (root : Nat × Node) (seq : List (Nat × Node)) : Prop :=
  ∃ p, Reaches root p ∧ seq ∈ sequences p.1 p.2

/-- The number is one of the numbers of a tree. -/
def Within (p : Nat × Node) (i : Nat) : Prop :=
  p.1 ≤ i ∧ i < p.1 + p.2.size

variable {id i : Nat} {n : Node} {ns : List Node} {p c d root : Nat × Node} {seq seq' : List (Nat × Node)}

theorem mem_sequences_branch {s : Span} {h : Hints} {shape : Shape} {args content : List Node} :
    seq ∈ sequences id (.branch s h shape args content) ↔
      seq = numbered (id + 1) args ∨ seq = numbered (id + 1 + sizeAll args) content := by
  simp [sequences]

theorem size_pos (n : Node) : 0 < n.size := by
  cases n <;> simp only [size] <;> omega

theorem within_self (p : Nat × Node) : Within p p.1 :=
  ⟨Nat.le_refl _, Nat.lt_add_of_pos_right (size_pos p.2)⟩

/-! ## numbers -/

theorem mem_of_mem_numbered (h : c ∈ numbered id ns) : c.2 ∈ ns := by
  induction ns generalizing id with
  | nil => cases h
  | cons n ns ih =>
    rcases List.mem_cons.1 h with rfl | h
    · exact List.mem_cons_self
    · exact List.mem_cons_of_mem _ (ih h)

/-- The numbers of a tree in a sequence are numbers of the sequence. -/
theorem bounds_of_mem_numbered (h : c ∈ numbered id ns) : id ≤ c.1 ∧ c.1 + c.2.size ≤ id + sizeAll ns := by
  induction ns generalizing id with
  | nil => cases h
  | cons n ns ih =>
    rw [sizeAll]
    rcases List.mem_cons.1 h with rfl | h
    · exact ⟨Nat.le_refl _, by dsimp only; omega⟩
    · have := ih h
      omega

/-- Trees in a sequence have no numbers in common. -/
theorem eq_of_mem_numbered (hc : c ∈ numbered id ns) (hd : d ∈ numbered id ns) (hic : Within c i)
    (hid : Within d i) : c = d := by
  induction ns generalizing id with
  | nil => cases hc
  | cons n ns ih =>
    simp only [Within] at hic hid
    rcases List.mem_cons.1 hc with rfl | hc <;> rcases List.mem_cons.1 hd with rfl | hd
    · rfl
    · have hbehind := bounds_of_mem_numbered hd
      dsimp only at hic
      omega
    · have hbehind := bounds_of_mem_numbered hc
      dsimp only at hid
      omega
    · exact ih hc hd

/-- A tree in a sequence of a node has numbers of the node, but not the first. -/
theorem bounds_of_mem_sequences (hseq : seq ∈ sequences p.1 p.2) (hc : c ∈ seq) :
    p.1 < c.1 ∧ c.1 + c.2.size ≤ p.1 + p.2.size := by
  obtain ⟨id, n⟩ := p
  cases n with
  | leaf s h l => cases hseq
  | branch s h shape args content =>
    dsimp only
    rw [size]
    rcases mem_sequences_branch.1 hseq with rfl | rfl
    · have := bounds_of_mem_numbered hc
      omega
    · have := bounds_of_mem_numbered hc
      omega

theorem HasChild.bounds (h : HasChild p c) : p.1 < c.1 ∧ c.1 + c.2.size ≤ p.1 + p.2.size := by
  obtain ⟨seq, hseq, hc⟩ := h
  exact bounds_of_mem_sequences hseq hc

/-- Trees that a node holds have no numbers in common, and those of its arguments are not those of its content. -/
theorem eq_of_mem_sequences (hseq : seq ∈ sequences p.1 p.2) (hseq' : seq' ∈ sequences p.1 p.2) (hc : c ∈ seq)
    (hd : d ∈ seq') (hic : Within c i) (hid : Within d i) : seq = seq' ∧ c = d := by
  obtain ⟨id, n⟩ := p
  cases n with
  | leaf s h l => cases hseq
  | branch s h shape args content =>
    rcases mem_sequences_branch.1 hseq with rfl | rfl <;> rcases mem_sequences_branch.1 hseq' with rfl | rfl
    · exact ⟨rfl, eq_of_mem_numbered hc hd hic hid⟩
    · have hbefore := bounds_of_mem_numbered hc
      have hbehind := bounds_of_mem_numbered hd
      simp only [Within] at hic hid
      omega
    · have hbefore := bounds_of_mem_numbered hd
      have hbehind := bounds_of_mem_numbered hc
      simp only [Within] at hic hid
      omega
    · exact ⟨rfl, eq_of_mem_numbered hc hd hic hid⟩

theorem Reaches.bounds (h : Reaches root p) : root.1 ≤ p.1 ∧ p.1 + p.2.size ≤ root.1 + root.2.size := by
  induction h with
  | refl => exact ⟨Nat.le_refl _, Nat.le_refl _⟩
  | tail hp hchild ih =>
    have := hchild.bounds
    omega

/-- What stands in a sequence below a node has a number of that node, but not the first. -/
theorem IsSequence.within (h : IsSequence root seq) (hi : i ∈ seq.map Prod.fst) : Within root i ∧ root.1 < i := by
  obtain ⟨p, hp, hseq⟩ := h
  obtain ⟨c, hc, rfl⟩ := List.mem_map.1 hi
  have hroot := hp.bounds
  have hchild := bounds_of_mem_sequences hseq hc
  have hpos := size_pos c.2
  refine ⟨⟨?_, ?_⟩, ?_⟩ <;> omega

/-- What stands in a sequence is reached. -/
theorem IsSequence.reaches (h : IsSequence root seq) (hc : c ∈ seq) : Reaches root c := by
  obtain ⟨p, hp, hseq⟩ := h
  exact hp.tail ⟨seq, hseq, hc⟩

/-- A sequence under a node is one that the node holds, or is under a node in one of these. -/
theorem isSequence_cases (h : IsSequence root seq) :
    seq ∈ sequences root.1 root.2 ∨ ∃ c, HasChild root c ∧ IsSequence c seq := by
  obtain ⟨p, hp, hseq⟩ := h
  rcases Relation.ReflTransGen.cases_head hp with rfl | ⟨c, hc, hp⟩
  · exact .inl hseq
  · exact .inr ⟨c, hc, p, hp, hseq⟩

/-- A sequence that a node holds has no number in common with those that are further below. -/
theorem not_mem_below (hseq : seq ∈ sequences root.1 root.2) (hc : HasChild root c) (hseq' : IsSequence c seq')
    (hi : i ∈ seq.map Prod.fst) : i ∉ seq'.map Prod.fst := by
  intro hi'
  obtain ⟨d, hd, rfl⟩ := List.mem_map.1 hi
  obtain ⟨held, hheld, hc⟩ := hc
  obtain ⟨hwithin, hbehind⟩ := hseq'.within hi'
  obtain ⟨-, rfl⟩ := eq_of_mem_sequences hseq hheld hd hc (within_self d) hwithin
  exact Nat.lt_irrefl _ hbehind

/-- **A number stands in one sequence only.** -/
theorem IsSequence.unique (h : IsSequence root seq) (h' : IsSequence root seq') (hi : i ∈ seq.map Prod.fst)
    (hi' : i ∈ seq'.map Prod.fst) : seq = seq' := by
  induction hsize : root.2.size using Nat.strongRecOn generalizing root with
  | _ size smaller =>
    rcases isSequence_cases h with hheld | ⟨c, hc, hbelow⟩ <;>
      rcases isSequence_cases h' with hheld' | ⟨d, hd, hbelow'⟩
    · obtain ⟨c, hc, rfl⟩ := List.mem_map.1 hi
      obtain ⟨d, hd, hnumber⟩ := List.mem_map.1 hi'
      exact (eq_of_mem_sequences hheld hheld' hc hd (within_self c) (hnumber ▸ within_self d)).1
    · exact absurd hi' (not_mem_below hheld hd hbelow' hi)
    · exact absurd hi (not_mem_below hheld' hc hbelow hi')
    · have hwithin := (hbelow.within hi).1
      have hwithin' := (hbelow'.within hi').1
      have hbounds := hc.bounds
      obtain ⟨held, hheld, hc⟩ := hc
      obtain ⟨held', hheld', hd⟩ := hd
      obtain ⟨-, rfl⟩ := eq_of_mem_sequences hheld hheld' hc hd hwithin hwithin'
      exact smaller c.2.size (by omega) hbelow hbelow' rfl

/-! ## numbers in reading order -/

mutual

theorem length_preorder : ∀ n : Node, n.preorder.length = n.size
  | .leaf s h l => by simp [preorder, size]
  | .branch s h shape args content => by
    simp only [preorder, size, List.length_cons, List.length_append, length_preorderAll args,
      length_preorderAll content]
    omega

theorem length_preorderAll : ∀ ns : List Node, (preorderAll ns).length = sizeAll ns
  | [] => rfl
  | n :: ns => by simp [preorderAll, sizeAll, length_preorder n, length_preorderAll ns]

end

/-- The nodes of a tree in a sequence stand together in reading order, from the number of the tree on. -/
theorem getElem?_of_mem_numbered {k : Nat} {m : Node} (hc : c ∈ numbered id ns) (hm : c.2.preorder[k]? = some m) :
    (preorderAll ns)[c.1 - id + k]? = some m := by
  induction ns generalizing id with
  | nil => cases hc
  | cons n ns ih =>
    rw [preorderAll]
    rcases List.mem_cons.1 hc with rfl | hc
    · rw [Nat.sub_self, Nat.zero_add]
      rw [List.getElem?_append_left (List.getElem?_eq_some_iff.1 hm).1, hm]
    · have hbounds := bounds_of_mem_numbered hc
      rw [List.getElem?_append_right (by rw [length_preorder]; omega), length_preorder]
      have hindex : c.1 - id + k - n.size = c.1 - (id + n.size) + k := by omega
      rw [hindex]
      exact ih hc

theorem getElem?_of_hasChild {k : Nat} {m : Node} (hc : HasChild p c) (hm : c.2.preorder[k]? = some m) :
    p.2.preorder[c.1 - p.1 + k]? = some m := by
  obtain ⟨seq, hseq, hc⟩ := hc
  obtain ⟨id, n⟩ := p
  cases n with
  | leaf s h l => cases hseq
  | branch s h shape args content =>
    rcases mem_sequences_branch.1 hseq with rfl | rfl
    · have hindex : c.1 - id + k = c.1 - (id + 1) + k + 1 := by
        have hbounds := bounds_of_mem_numbered hc
        omega
      have hfound := getElem?_of_mem_numbered hc hm
      rw [preorder, hindex, List.getElem?_cons_succ,
        List.getElem?_append_left (List.getElem?_eq_some_iff.1 hfound).1, hfound]
    · have hindex : c.1 - id + k = sizeAll args + (c.1 - (id + 1 + sizeAll args) + k) + 1 := by
        have hbounds := bounds_of_mem_numbered hc
        omega
      rw [preorder, hindex, List.getElem?_cons_succ, ← length_preorderAll args,
        List.getElem?_append_right (Nat.le_add_right _ _), Nat.add_sub_cancel_left, length_preorderAll]
      exact getElem?_of_mem_numbered hc hm

mutual

theorem reaches_of_preorder (id : Nat) : ∀ {n m : Node} {k : Nat}, n.preorder[k]? = some m →
    Reaches (id, n) (id + k, m)
  | .leaf s h l, m, 0, hk => by
    rw [preorder] at hk
    cases hk
    exact .refl
  | .leaf s h l, m, k + 1, hk => by
    rw [preorder] at hk
    cases hk
  | .branch s h shape args content, m, 0, hk => by
    rw [preorder] at hk
    cases hk
    exact .refl
  | .branch s h shape args content, m, k + 1, hk => by
    rw [preorder, List.getElem?_cons_succ, List.getElem?_append, length_preorderAll] at hk
    split at hk
    · obtain ⟨c, hc, hreaches⟩ := exists_of_preorderAll (id + 1) hk
      have hnumber : id + 1 + k = id + (k + 1) := by omega
      exact .head ⟨_, mem_sequences_branch.2 (.inl rfl), hc⟩ (hnumber ▸ hreaches)
    · next hbehind =>
      obtain ⟨c, hc, hreaches⟩ := exists_of_preorderAll (id + 1 + sizeAll args) hk
      have hnumber : id + 1 + sizeAll args + (k - sizeAll args) = id + (k + 1) := by omega
      exact .head ⟨_, mem_sequences_branch.2 (.inr rfl), hc⟩ (hnumber ▸ hreaches)

theorem exists_of_preorderAll (id : Nat) : ∀ {ns : List Node} {m : Node} {k : Nat}, (preorderAll ns)[k]? = some m →
    ∃ c ∈ numbered id ns, Reaches c (id + k, m)
  | [], m, k, hk => by cases hk
  | n :: ns, m, k, hk => by
    rw [preorderAll, List.getElem?_append, length_preorder] at hk
    split at hk
    · exact ⟨(id, n), List.mem_cons_self, reaches_of_preorder id hk⟩
    · next hbehind =>
      obtain ⟨c, hc, hreaches⟩ := exists_of_preorderAll (id + n.size) hk
      have hnumber : id + n.size + (k - n.size) = id + k := by omega
      exact ⟨c, List.mem_cons_of_mem _ hc, hnumber ▸ hreaches⟩

end

/-- **The number of a node is its place in reading order.** -/
theorem Reaches.getElem? (h : Reaches root p) : root.2.preorder[p.1 - root.1]? = some p.2 := by
  induction h using Relation.ReflTransGen.head_induction_on with
  | refl =>
    rw [Nat.sub_self]
    cases p.2 <;> simp [preorder]
  | @head q c hc hp ih =>
    have hchild := hc.bounds
    have hbounds := Reaches.bounds hp
    have hindex : p.1 - q.1 = c.1 - q.1 + (p.1 - c.1) := by omega
    rw [hindex]
    exact getElem?_of_hasChild hc ih

end Node

namespace Neighbours

open Node

/-! ## what is written down -/

mutual

/-- **Every number below a node is written down once**, in order. -/
theorem map_fst_below (id : Nat) : ∀ n : Node, (below id n).map Prod.fst = List.range' (id + 1) (n.size - 1)
  | .leaf s h l => by simp [below, size]
  | .branch s h shape args content => by
    have hsize : (branch s h shape args content).size - 1 = sizeAll args + sizeAll content := by
      rw [size]
      omega
    rw [below, List.map_append, map_fst_along none (id + 1) args, map_fst_along none _ content, hsize,
      List.range'_append_1]

theorem map_fst_along (previous : Option Nat) (id : Nat) :
    ∀ ns : List Node, (along previous id ns).map Prod.fst = List.range' id (sizeAll ns)
  | [] => by simp [along, sizeAll]
  | n :: ns => by
    have hsize : sizeAll (n :: ns) = n.size - 1 + sizeAll ns + 1 := by
      have hpos := size_pos n
      rw [sizeAll]
      omega
    have hnext : id + n.size = id + 1 + (n.size - 1) := by
      have hpos := size_pos n
      omega
    rw [along, List.map_cons, List.map_append, map_fst_below id n, map_fst_along _ _ ns, hsize, List.range'_succ,
      hnext, List.range'_append_1]

end

/-- The node is no empty place. -/
def Present (n : Node) : Prop :=
  n.isMissing = false

theorem number?_of_present {id : Nat} {n : Node} (h : Present n) : number? id n = some id := by
  rw [number?, h]
  rfl

/-- The number `i` stands in a sequence, which comes after `previous`, between the numbers of `s`. -/
def Between (previous : Option Nat) (seq : List (Nat × Node)) (i : Nat) (s : Siblings) : Prop :=
  ∃ before n after, seq = before ++ (i, n) :: after ∧
    s = ⟨(before.getLast?.map Prod.fst).or previous, after.head?.map Prod.fst⟩

variable {previous : Option Nat} {id i : Nat} {n : Node} {ns : List Node} {seq : List (Nat × Node)} {s : Siblings}
  {root : Nat × Node}

theorem getLast?_cons_or (x : Nat × Node) (before : List (Nat × Node)) :
    ((x :: before).getLast?.map Prod.fst).or previous = (before.getLast?.map Prod.fst).or (some x.1) := by
  rw [List.getLast?_cons]
  cases before.getLast? <;> rfl

/-- A number is the first of a sequence or stands in the rest of it, which comes after the first. -/
theorem between_cons : Between previous ((id, n) :: seq) i s ↔
    (i, s) = (id, ⟨previous, seq.head?.map Prod.fst⟩) ∨ Between (some id) seq i s := by
  constructor
  · rintro ⟨before, m, after, hseq, rfl⟩
    cases before with
    | nil =>
      cases hseq
      exact .inl rfl
    | cons x before =>
      obtain ⟨rfl, rfl⟩ := List.cons_eq_cons.1 hseq
      exact .inr ⟨before, m, after, rfl, by rw [getLast?_cons_or]⟩
  · rintro (h | ⟨before, m, after, rfl, rfl⟩)
    · cases h
      exact ⟨[], n, seq, rfl, rfl⟩
    · exact ⟨(id, n) :: before, m, after, rfl, by rw [getLast?_cons_or]⟩

/-- The number that is written down as next is that of the next node. -/
theorem next_eq_head? (hfull : ∀ n ∈ ns, Present n) (id : Nat) :
    ns.head?.bind (number? id) = (numbered id ns).head?.map Prod.fst := by
  cases ns with
  | nil => rfl
  | cons n ns => exact number?_of_present (hfull n List.mem_cons_self)

/-- **One sequence.** What is written down along it is written about its own nodes or below one of them. -/
theorem mem_along_iff (hfull : ∀ n ∈ ns, Present n) :
    (i, s) ∈ along previous id ns ↔
      Between previous (numbered id ns) i s ∨ ∃ c ∈ numbered id ns, (i, s) ∈ below c.1 c.2 := by
  induction ns generalizing previous id with
  | nil => simp [along, numbered, Between]
  | cons n ns ih =>
    have hrest : ∀ m ∈ ns, Present m := fun m hm => hfull m (List.mem_cons_of_mem _ hm)
    rw [along, numbered, between_cons, next_eq_head? hrest, number?_of_present (hfull n List.mem_cons_self)]
    simp only [List.mem_cons, List.mem_append, ih hrest, exists_eq_or_imp]
    rw [or_or_or_comm, or_assoc]

/-- **One node.** What is written down below it is written about its children or below one of them. -/
theorem mem_below_iff (hfull : Each Present root.2) :
    (i, s) ∈ below root.1 root.2 ↔
      ∃ seq ∈ sequences root.1 root.2, Between none seq i s ∨ ∃ c ∈ seq, (i, s) ∈ below c.1 c.2 := by
  obtain ⟨id, n⟩ := root
  cases n with
  | leaf span h l => simp [below, sequences]
  | branch span h shape args content =>
    obtain ⟨-, hargs, hcontent⟩ := each_branch_iff.1 hfull
    have hargs : ∀ n ∈ args, Present n := fun n hn => (hargs.of_mem hn).self
    have hcontent : ∀ n ∈ content, Present n := fun n hn => (hcontent.of_mem hn).self
    simp only [below, sequences, List.mem_append, mem_along_iff hargs, mem_along_iff hcontent, List.mem_cons,
      List.not_mem_nil, or_false, exists_eq_or_imp, exists_eq_left]

theorem each_of_hasChild {P : Node → Prop} {p c : Nat × Node} (h : HasChild p c) (hp : Each P p.2) : Each P c.2 := by
  obtain ⟨seq, hseq, hc⟩ := h
  obtain ⟨id, n⟩ := p
  cases n with
  | leaf span h l => cases hseq
  | branch span h shape args content =>
    obtain ⟨-, hargs, hcontent⟩ := each_branch_iff.1 hp
    rcases mem_sequences_branch.1 hseq with rfl | rfl
    · exact hargs.of_mem (mem_of_mem_numbered hc)
    · exact hcontent.of_mem (mem_of_mem_numbered hc)

/-- **The whole tree.** What is written down is that every node of every sequence stands between its neighbours. -/
theorem mem_below_iff_isSequence (hfull : Each Present root.2) :
    (i, s) ∈ below root.1 root.2 ↔ ∃ seq, IsSequence root seq ∧ Between none seq i s := by
  constructor
  · intro h
    induction hsize : root.2.size using Nat.strongRecOn generalizing root with
    | _ size smaller =>
      obtain ⟨held, hheld, hbetween | ⟨c, hc, hbelow⟩⟩ := (mem_below_iff hfull).1 h
      · exact ⟨held, ⟨root, .refl, hheld⟩, hbetween⟩
      · have hchild : HasChild root c := ⟨held, hheld, hc⟩
        have hbounds := hchild.bounds
        obtain ⟨seq, ⟨p, hp, hseq⟩, hbetween⟩ :=
          smaller c.2.size (by omega) (each_of_hasChild hchild hfull) hbelow rfl
        exact ⟨seq, ⟨p, .head hchild hp, hseq⟩, hbetween⟩
  · rintro ⟨seq, ⟨p, hp, hseq⟩, hbetween⟩
    -- from the node that holds the sequence up to the root
    induction hp using Relation.ReflTransGen.head_induction_on with
    | refl => exact (mem_below_iff hfull).2 ⟨seq, hseq, .inl hbetween⟩
    | head hchild _ ih =>
      have hbelow := ih (each_of_hasChild hchild hfull)
      obtain ⟨held, hheld, hc⟩ := hchild
      exact (mem_below_iff hfull).2 ⟨held, hheld, .inr ⟨_, hc, hbelow⟩⟩

/-! ## what is looked up -/

variable {before after : List (Nat × Node)} {a b : Nat}

/-- No number is written down twice, so a number is looked up as it was written down. -/
theorem lookup_eq_some_iff (hfull : Each Present root.2) :
    (build root.1 root.2).links.lookup i = some s ↔ ∃ seq, IsSequence root seq ∧ Between none seq i s := by
  have hnodup : ((below root.1 root.2).map Prod.fst).Nodup := by
    rw [map_fst_below]
    exact List.nodup_range'
  exact (lookup_eq_some_iff_mem hnodup).trans (mem_below_iff_isSequence hfull)

theorem siblings_of_isSequence (hfull : Each Present root.2) (h : IsSequence root (before ++ (i, n) :: after)) :
    (build root.1 root.2).siblings i = ⟨before.getLast?.map Prod.fst, after.head?.map Prod.fst⟩ := by
  have hlookup := (lookup_eq_some_iff hfull).2 ⟨_, h, before, n, after, rfl, rfl⟩
  rw [siblings, hlookup, Option.or_none]
  rfl

/-- What is written down about a number is that it stands in a sequence. -/
theorem exists_isSequence_of_lookup (hfull : Each Present root.2)
    (h : (build root.1 root.2).links.lookup i = some s) :
    ∃ before n after, IsSequence root (before ++ (i, n) :: after) := by
  obtain ⟨seq, hseq, before, n, after, rfl, -⟩ := (lookup_eq_some_iff hfull).1 h
  exact ⟨before, n, after, hseq⟩

theorem exists_isSequence_of_siblings (hfull : Each Present root.2) (h : (build root.1 root.2).siblings i ≠ {}) :
    ∃ before n after, IsSequence root (before ++ (i, n) :: after) := by
  cases hlookup : (build root.1 root.2).links.lookup i with
  | none =>
    rw [siblings, hlookup] at h
    exact absurd rfl h
  | some s => exact exists_isSequence_of_lookup hfull hlookup

/-- The map contains its root and what stands in a sequence below it. -/
theorem contains_iff_isSequence (hfull : Each Present root.2) : (build root.1 root.2).contains i = true ↔
    i = root.1 ∨ ∃ before n after, IsSequence root (before ++ (i, n) :: after) := by
  rw [contains, Bool.or_eq_true, beq_iff_eq, Option.isSome_iff_exists]
  refine or_congr .rfl ⟨?_, ?_⟩
  · rintro ⟨s, hs⟩
    exact exists_isSequence_of_lookup hfull hs
  · rintro ⟨before, n, after, hseq⟩
    exact ⟨_, (lookup_eq_some_iff hfull).2 ⟨_, hseq, before, n, after, rfl, rfl⟩⟩

/-- **The map contains what is reached from its root.** -/
theorem contains_iff_reaches (hfull : Each Present root.2) :
    (build root.1 root.2).contains i = true ↔ ∃ n, Reaches root (i, n) := by
  rw [contains_iff_isSequence hfull]
  constructor
  · rintro (rfl | ⟨before, n, after, hseq⟩)
    · exact ⟨root.2, .refl⟩
    · exact ⟨n, hseq.reaches (by simp)⟩
  · rintro ⟨n, h⟩
    rcases Relation.ReflTransGen.cases_tail h with rfl | ⟨p, hp, seq, hseq, hc⟩
    · exact .inl rfl
    · obtain ⟨before, after, rfl⟩ := List.append_of_mem hc
      exact .inr ⟨before, n, after, p, hp, hseq⟩

/-- A node outside has no siblings, and neither has the root. -/
theorem siblings_eq_none (hfull : Each Present root.2)
    (h : (build root.1 root.2).contains i = false ∨ i = root.1) : (build root.1 root.2).siblings i = {} := by
  refine Classical.byContradiction fun hsome => ?_
  obtain ⟨before, n, after, hseq⟩ := exists_isSequence_of_siblings hfull hsome
  rcases h with houtside | rfl
  · have hinside := (contains_iff_isSequence hfull).2 (.inr ⟨before, n, after, hseq⟩)
    rw [houtside] at hinside
    cases hinside
  · exact Nat.lt_irrefl _ (hseq.within (by simp)).2

/-- One number is next to another if it stands right behind it in a sequence. -/
theorem next?_eq_some_iff (hfull : Each Present root.2) : (build root.1 root.2).next? a = some b ↔
    ∃ before n m after, IsSequence root (before ++ (a, n) :: (b, m) :: after) := by
  constructor
  · intro h
    obtain ⟨before, n, after, hseq⟩ := exists_isSequence_of_siblings (i := a) hfull (by
      intro hnone
      rw [next?, hnone] at h
      cases h)
    rw [next?, siblings_of_isSequence hfull hseq] at h
    obtain ⟨⟨_, m⟩, hhead, rfl⟩ := Option.map_eq_some_iff.1 h
    obtain ⟨after, rfl⟩ := List.head?_eq_some_iff.1 hhead
    exact ⟨before, n, m, after, hseq⟩
  · rintro ⟨before, n, m, after, hseq⟩
    rw [next?, siblings_of_isSequence hfull hseq]
    rfl

theorem previous?_eq_some_iff (hfull : Each Present root.2) : (build root.1 root.2).previous? b = some a ↔
    ∃ before n m after, IsSequence root (before ++ (a, n) :: (b, m) :: after) := by
  constructor
  · intro h
    obtain ⟨before, m, after, hseq⟩ := exists_isSequence_of_siblings (i := b) hfull (by
      intro hnone
      rw [previous?, hnone] at h
      cases h)
    rw [previous?, siblings_of_isSequence hfull hseq] at h
    obtain ⟨⟨_, n⟩, hlast, rfl⟩ := Option.map_eq_some_iff.1 h
    obtain ⟨before, rfl⟩ := List.getLast?_eq_some_iff.1 hlast
    exact ⟨before, n, m, after, by simpa using hseq⟩
  · rintro ⟨before, n, m, after, hseq⟩
    have hseq : IsSequence root ((before ++ [(a, n)]) ++ (b, m) :: after) := by simpa using hseq
    rw [previous?, siblings_of_isSequence hfull hseq]
    simp

/-- **The map of neighbours is right**, whichever node of a tree is taken as its root. Nodes are told apart by their
    place in reading order. The map contains the nodes that are reached from the root through children, and no others.
    Each of them but the root stands in one sequence, and its siblings are its neighbours there, none at an end. So one
    node is next to another if the other is previous to it. The root and the nodes outside have no siblings. -/
theorem siblings_are_neighbours {tree root : Node} {id : Nat} (hfull : ∀ n ∈ tree.preorder, n.isMissing = false)
    (hroot : tree.preorder[id]? = some root) :
    (∀ i, (build id root).contains i = true ↔ ∃ n, tree.preorder[i]? = some n ∧ Reaches (id, root) (i, n)) ∧
    (∀ i, (build id root).contains i = true → i ≠ id →
      ∃! seq, IsSequence (id, root) seq ∧ i ∈ seq.map Prod.fst) ∧
    (∀ before i n after, IsSequence (id, root) (before ++ (i, n) :: after) →
      (build id root).previous? i = before.getLast?.map Prod.fst ∧
      (build id root).next? i = after.head?.map Prod.fst) ∧
    (∀ a b, (build id root).next? a = some b ↔ (build id root).previous? b = some a) ∧
    ∀ i, (build id root).contains i = false ∨ i = id →
      (build id root).previous? i = none ∧ (build id root).next? i = none := by
  have hpresent : Each Present (id, root).2 := Each.of_mem_preorder hfull (List.mem_of_getElem? hroot)
  have htree : Reaches (0, tree) (id, root) := by
    have hreaches := reaches_of_preorder 0 hroot
    rwa [Nat.zero_add] at hreaches
  refine ⟨fun i => ?_, fun i hi hne => ?_, fun before i n after hseq => ?_, fun a b => ?_, fun i hi => ?_⟩
  · refine (contains_iff_reaches hpresent).trans ⟨?_, ?_⟩
    · rintro ⟨n, hn⟩
      exact ⟨n, Reaches.getElem? (htree.trans hn), hn⟩
    · rintro ⟨n, -, hn⟩
      exact ⟨n, hn⟩
  · obtain ⟨before, n, after, hseq⟩ := ((contains_iff_isSequence hpresent).1 hi).resolve_left hne
    refine ⟨_, ⟨hseq, by simp⟩, fun other hother => ?_⟩
    exact hother.1.unique hseq hother.2 (by simp)
  · have hsiblings := siblings_of_isSequence hpresent hseq
    exact ⟨congrArg Siblings.previous hsiblings, congrArg Siblings.next hsiblings⟩
  · exact (next?_eq_some_iff hpresent).trans (previous?_eq_some_iff hpresent).symm
  · have hsiblings := siblings_eq_none hpresent hi
    exact ⟨congrArg Siblings.previous hsiblings, congrArg Siblings.next hsiblings⟩

/-- An environment with an argument and a content, both of which hold the same two words: the nodes 2, 3 and 4, 5. -/
def sameWords : Node :=
  .branch {} {} (.environment (bytes "e"))
    [.branch {} {} (.argument [] (bytes "\x7b") (bytes "\x7d")) []
      [.leaf {} {} (.text (bytes "a")), .leaf {} {} (.text (bytes "b"))]]
    [.leaf {} {} (.text (bytes "a")), .leaf {} {} (.text (bytes "b"))]

/-- The words of the argument and those of the content are not neighbours, and under the argument the content is
    unknown. -/
theorem siblings_are_neighbours_sameWords :
    ∃ argument, sameWords.preorder[1]? = some argument ∧
      (build 0 sameWords).next? 2 = some 3 ∧ (build 0 sameWords).previous? 3 = some 2 ∧
      (build 0 sameWords).next? 3 = none ∧ (build 0 sameWords).next? 1 = none ∧
      (build 1 argument).contains 3 = true ∧ (build 1 argument).contains 4 = false ∧
      (build 1 argument).previous? 5 = none := by
  have hfull : ∀ n ∈ sameWords.preorder, n.isMissing = false := by
    simp [sameWords, preorder, preorderAll, isMissing]
  obtain ⟨-, -, hneighbours, hmutual, -⟩ := @siblings_are_neighbours sameWords _ 0 hfull rfl
  obtain ⟨-, -, -, -, houtside⟩ := @siblings_are_neighbours sameWords _ 1 hfull rfl
  have hargs : IsSequence (0, sameWords) [(1, _)] := ⟨_, .refl, List.mem_cons_self⟩
  refine ⟨_, rfl, rfl, (hmutual 2 3).1 rfl, rfl, (hneighbours [] 1 _ [] hargs).2, rfl, rfl, ?_⟩
  exact (houtside 5 (.inl rfl)).1

end Neighbours

end TexTidy
