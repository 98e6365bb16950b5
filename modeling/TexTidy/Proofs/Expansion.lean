import Mathlib.Data.List.Basic
import TexTidy.Table.Column

/-!
# TexTidy.Proofs.Expansion

The columns that a specification asks for. `alignments` reads a specification and writes the body of a repetition as
often as its count says, however many columns that makes. A table takes the first `columnLimit` of them: the limit cuts
columns off and changes none that it keeps.

The limit applies wherever columns are added, also inside a repetition and inside its body. That this is the same as
to cut once at the end rests on `take_flatten_replicate`: the first `k` elements of a repeated list need no more than
`k` copies, and no more than `k` elements of each.
-/

namespace TexTidy

/-! ## the pieces of a specification -/

/-- Removing white space makes a text no longer. -/
theorem Text.length_removeSpaces_le (s : Bytes) : (removeSpaces s).length ≤ s.length := by
  unfold removeSpaces
  fun_induction Utf8.pieces s with
  | case1 => simp
  | case2 a s c n hfirst ih =>
    have hpiece : (if isSpaceChar c then [] else a :: s.take (n - 1)).length ≤ (s.take (n - 1)).length + 1 := by
      split
      · exact Nat.zero_le _
      · exact Nat.le_refl _
    rw [List.length_take] at hpiece
    rw [List.length_drop] at ih
    rw [List.flatMap_cons, List.length_append, List.length_cons]
    have hsum := Nat.add_le_add hpiece ih
    exact Nat.le_trans hsum (by omega)
  | case3 a s hfirst ih =>
    rw [List.flatMap_cons, List.length_append, List.length_cons, Nat.add_comm s.length]
    exact Nat.add_le_add_left ih 1

namespace Table

theorem length_untilClosed_le (depth : Nat) (s : Bytes) :
    (untilClosed depth s).1.length ≤ s.length ∧ (untilClosed depth s).2.length ≤ s.length := by
  induction s generalizing depth with
  | nil => exact ⟨Nat.le_refl _, Nat.le_refl _⟩
  | cons c s ih =>
    rw [untilClosed]
    split
    · exact ⟨Nat.zero_le _, Nat.le_succ _⟩
    · exact ⟨Nat.succ_le_succ (ih _).1, Nat.le_succ_of_le (ih _).2⟩

/-- A group and what follows it are parts of the text. -/
theorem length_bracedGroup_le (s : Bytes) :
    (bracedGroup s).1.length ≤ s.length ∧ (bracedGroup s).2.length ≤ s.length := by
  unfold bracedGroup
  split
  · next s =>
    obtain ⟨hinside, hrest⟩ := length_untilClosed_le 0 s
    exact ⟨Nat.le_succ_of_le hinside, Nat.le_succ_of_le hrest⟩
  · exact ⟨Nat.zero_le _, Nat.le_refl _⟩

/-- The body of a repetition and what follows it are no longer than the text after the star. -/
theorem length_repetition_le (s : Bytes) :
    (Text.removeSpaces (bracedGroup (bracedGroup s).2).1).length ≤ s.length ∧
      (bracedGroup (bracedGroup s).2).2.length ≤ s.length := by
  have hspaces := Text.length_removeSpaces_le (bracedGroup (bracedGroup s).2).1
  have hbody := length_bracedGroup_le (bracedGroup s).2
  have hcount := length_bracedGroup_le s
  omega

/-! ## expansion without a limit -/

/-- The alignments of the columns that a specification without white space asks for, from the left. A repetition
    `*{count}{body}` stands for as many copies of what its body asks for as the count says. -/
def alignments : Bytes → List Alignment
  | [] => []
  | c :: s =>
    if c = Byte.star then
      let count := bracedGroup s
      let body := bracedGroup count.2
      (List.replicate (repetitions count.1) (alignments (Text.removeSpaces body.1))).flatten ++ alignments body.2
    else if isSizedColumn c then .paragraph :: alignments (bracedGroup s).2
    else if isInsertion c then alignments (bracedGroup s).2
    else (plainColumn? c).toList ++ alignments s
termination_by s => s.length
decreasing_by
  all_goals simp only [List.length_cons, Nat.lt_succ_iff]
  · exact (length_repetition_le s).1
  · exact (length_repetition_le s).2
  · exact (length_bracedGroup_le _).2
  · exact (length_bracedGroup_le _).2
  · exact Nat.le_refl _

namespace SpecPart

mutual

/-- The alignments that a part asks for. -/
def alignments : SpecPart → List Alignment
  | .bar => []
  | .column align _ => [align]
  | .times count body => (List.replicate count (alignmentsAll body)).flatten

/-- The alignments that several parts ask for. -/
def alignmentsAll : List SpecPart → List Alignment
  | [] => []
  | p :: ps => alignments p ++ alignmentsAll ps

end

end SpecPart

/-- **The parts of a specification are read to its end.** The steps suffice, in the body of a repetition too. -/
theorem alignmentsAll_specParts {steps : Nat} {s : Bytes} (afterBar : Bool) (h : s.length ≤ steps) :
    SpecPart.alignmentsAll (specParts steps afterBar s) = alignments s := by
  induction steps generalizing s afterBar with
  | zero =>
    rw [List.length_eq_zero_iff.1 (Nat.le_zero.1 h), specParts, alignments, SpecPart.alignmentsAll]
  | succ steps ih =>
    cases s with
    | nil => rw [specParts, alignments, SpecPart.alignmentsAll]
    | cons c s =>
      have hs : s.length ≤ steps := Nat.le_of_succ_le_succ h
      have hgroup : (bracedGroup s).2.length ≤ steps := Nat.le_trans (length_bracedGroup_le s).2 hs
      rw [specParts, alignments]
      by_cases hbar : c = Byte.bar
      · subst hbar
        rw [if_pos rfl, SpecPart.alignmentsAll, ih true hs]
        rfl
      rw [if_neg hbar]
      split
      · obtain ⟨hbody, hrest⟩ := length_repetition_le s
        dsimp only
        rw [SpecPart.alignmentsAll, SpecPart.alignments, ih false (Nat.le_trans hbody hs),
          ih false (Nat.le_trans hrest hs)]
      split
      · rw [SpecPart.alignmentsAll, ih false hgroup]
        rfl
      split
      · exact ih false hgroup
      · split
        · next align halign =>
          rw [SpecPart.alignmentsAll, ih false hs, halign]
          rfl
        · next hnone =>
          rw [ih false hs, hnone]
          rfl

/-! ## the limit -/

/-- A repeated list holds at least one element for each copy, unless it is empty. -/
theorem le_length_flatten_replicate {α : Type} {l : List α} (hl : l ≠ []) (n : Nat) :
    n ≤ (List.replicate n l).flatten.length := by
  rw [List.length_flatten, List.map_replicate, List.sum_replicate_nat]
  exact Nat.le_mul_of_pos_right n (List.length_pos_iff.2 hl)

/-- The first elements of a repeated list come from the first elements of each copy. -/
theorem take_flatten_replicate_take {α : Type} {m k : Nat} (hm : m ≤ k) (n : Nat) (l : List α) :
    ((List.replicate n (l.take k)).flatten).take m = ((List.replicate n l).flatten).take m := by
  by_cases hk : l.length ≤ k
  · rw [List.take_of_length_le hk]
  · -- the first copy is already longer than what is taken
    cases n with
    | zero => rfl
    | succ n =>
      have hshort : m ≤ (l.take k).length := by
        rw [List.length_take]
        omega
      rw [List.replicate_succ, List.replicate_succ, List.flatten_cons, List.flatten_cons,
        List.take_append_of_le_length hshort, List.take_append_of_le_length (by omega), List.take_take,
        Nat.min_eq_left hm]

/-- What a limit takes of a list does not change when the front of the list is cut at the limit before. -/
theorem take_append_of_take {α : Type} (k : Nat) (l more : List α) :
    (l.take k ++ more).take k = (l ++ more).take k := by
  have hroom : k - (l.take k).length = k - l.length := by
    rw [List.length_take]
    omega
  rw [List.take_append, List.take_append, List.take_take, Nat.min_self, hroom]

/-- **What a limit takes of a repeated list:** no more copies than the limit, and no more of each. -/
theorem take_flatten_replicate {α : Type} {m k : Nat} (hm : m ≤ k) (n : Nat) (l : List α) :
    ((List.replicate (min n k) (l.take k)).flatten).take m = ((List.replicate n l).flatten).take m := by
  rw [take_flatten_replicate_take hm]
  by_cases hl : l = []
  · simp [hl]
  · obtain hn | hn := Nat.le_total n k
    · rw [Nat.min_eq_left hn]
    · obtain ⟨more, rfl⟩ := Nat.exists_eq_add_of_le hn
      rw [Nat.min_eq_right hn, List.replicate_add, List.flatten_append,
        List.take_append_of_le_length (Nat.le_trans hm (le_length_flatten_replicate hl k))]

theorem align_closeBorder (columns : List Column) :
    (closeBorder columns).map Column.align = columns.map Column.align := by
  unfold closeBorder
  split
  · next hnone => rw [List.getLast?_eq_none_iff.1 hnone]
  · next last hlast =>
    obtain ⟨front, rfl⟩ := List.getLast?_eq_some_iff.1 hlast
    simp

mutual

/-- One more part adds the columns it asks for, up to the limit. -/
theorem align_expandPart : ∀ (p : SpecPart) {columns : List Column}, columns.length < columnLimit →
    (expandPart columns p).map Column.align = (columns.map Column.align ++ p.alignments).take columnLimit
  | .bar, columns, h => by
    rw [expandPart, align_closeBorder, SpecPart.alignments, List.append_nil, List.take_of_length_le]
    rw [List.length_map]
    exact Nat.le_of_lt h
  | .column align afterBar, columns, h => by
    rw [expandPart, SpecPart.alignments, List.map_append, List.take_of_length_le]
    · rfl
    · rw [List.length_append, List.length_map]
      exact h
  | .times count body, columns, h => by
    have hbody : (expandParts [] body).map Column.align =
        (SpecPart.alignmentsAll body).take columnLimit := by
      rw [align_expandParts body (Nat.zero_le _), List.map_nil, List.nil_append]
    have hcopies : (expandPart columns (.times count body)).map Column.align =
        (columns.map Column.align ++
          (List.replicate (min count columnLimit) ((SpecPart.alignmentsAll body).take columnLimit)).flatten).take
            columnLimit := by
      rw [expandPart, List.map_take, List.map_append, List.map_flatten, List.map_replicate, hbody]
    -- The copies are cut where the columns that are there already leave no more room.
    rw [hcopies, SpecPart.alignments, List.take_append, take_flatten_replicate (Nat.sub_le _ _), ← List.take_append]

/-- **Several parts add the columns they ask for, up to the limit.** -/
theorem align_expandParts : ∀ (ps : List SpecPart) {columns : List Column}, columns.length ≤ columnLimit →
    (expandParts columns ps).map Column.align =
      (columns.map Column.align ++ SpecPart.alignmentsAll ps).take columnLimit
  | [], columns, h => by
    rw [expandParts, SpecPart.alignmentsAll, List.append_nil, List.take_of_length_le]
    rwa [List.length_map]
  | p :: ps, columns, h => by
    rw [expandParts, SpecPart.alignmentsAll]
    split
    · next hfull =>
      rw [List.take_append_of_le_length (by rwa [List.length_map]), List.take_of_length_le]
      rwa [List.length_map]
    · next hroom =>
      have hpart := align_expandPart p (Nat.lt_of_not_le hroom)
      have hlength : (expandPart columns p).length ≤ columnLimit := by
        rw [← List.length_map (f := Column.align), hpart, List.length_take]
        exact Nat.min_le_left _ _
      rw [align_expandParts ps hlength, hpart, take_append_of_take, List.append_assoc]

end

end Table

end TexTidy
