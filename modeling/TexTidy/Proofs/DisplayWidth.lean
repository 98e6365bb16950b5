import TexTidy.Proofs.Columns
import TexTidy.Proofs.Follow
import TexTidy.Text.Width

/-!
# TexTidy.Proofs.DisplayWidth

The display width of a text is at most that of its parts, as long as no part begins inside a character
(`isMeasure_displayWidth`). Where two parts meet, clusters can only grow together: what stands before a
character can tie it to the cluster before, but never unties it. The one exception are regional indicators,
which pair up from the left; one more of them in front shifts all pairs, and costs no more than one column.
-/

namespace TexTidy

namespace Utf8

/-- A text that begins with a character adds nothing to the last character before it. -/
theorem first?_append (a : UInt8) (s : Bytes) {t : Bytes} (ht : t.isWhole = true) :
    first? (a :: (s ++ t)) = first? (a :: s) := by
  have hnone : t.takeWhile isTail = [] := by
    cases t with
    | nil => rfl
    | cons b t => exact List.takeWhile_cons_of_neg (by simpa [Bytes.isWhole] using ht)
  have htake : (s ++ t).takeWhile isTail = s.takeWhile isTail := by
    rw [List.takeWhile_append]
    split
    · next h =>
      rw [hnone, List.append_nil]
      exact ((List.takeWhile_prefix _).eq_of_length h).symm
    · rfl
  rw [first?_takeWhile a (s ++ t), htake, ← first?_takeWhile a s]

theorem pieces_append (s : Bytes) {t : Bytes} (ht : t.isWhole = true) :
    pieces (s ++ t) = pieces s ++ pieces t := by
  fun_induction pieces s with
  | case1 => rfl
  | case2 a s c n h ih =>
    have hn : n - 1 ≤ s.length := by
      have hle := (first?_bounds h).2
      rw [List.length_cons] at hle
      omega
    rw [List.cons_append, pieces, first?_append a s ht, h, List.cons_append]
    dsimp only
    rw [List.take_append_of_le_length hn, List.drop_append_of_le_length hn, ih]
  | case3 a s h ih =>
    rw [List.cons_append, pieces, first?_append a s ht, h, List.cons_append]
    dsimp only
    rw [ih]

theorem decode_append (s : Bytes) {t : Bytes} (ht : t.isWhole = true) :
    decode (s ++ t) = decode s ++ decode t := by
  rw [decode, pieces_append s ht, List.map_append, decode, decode]

end Utf8

namespace Text

theorem clusterWidth_append_singleton (cs : List Char) (c : Char) :
    clusterWidth (cs ++ [c]) = if clusterWidth cs = 0 then charWidth c else clusterWidth cs := by
  unfold clusterWidth
  rw [List.map_append, List.find?_append]
  cases h : (cs.map charWidth).find? (· ≠ 0) with
  | none =>
    by_cases hc : charWidth c = 0
    · simp [hc]
    · simp [hc]
  | some w =>
    have hw : w ≠ 0 := by simpa using List.find?_some h
    simp [hw]

@[simp] theorem clusterWidth_singleton (c : Char) : clusterWidth [c] = charWidth c :=
  clusterWidth_append_singleton [] c

theorem Cluster.hangul?_ne_regional (n : Nat) : hangul? n ≠ some .regional := by
  unfold hangul?
  intro h
  repeat' split at h
  all_goals simp at h

/-- The regional indicators stand for the letters. -/
theorem Cluster.exists_of_regional {c : Char} (h : classOf c = .regional) :
    ∃ i : Fin 26, c.toNat = 0x1F1E6 + i := by
  have hrange : 0x1F1E6 ≤ c.toNat ∧ c.toNat ≤ 0x1F1FF := by
    by_contra hout
    revert h
    change classOf c ≠ .regional
    unfold classOf
    dsimp only
    iterate 5 refine iteInduction (motive := (· ≠ Class.regional)) (fun _ => nofun) fun _ => ?_
    rw [if_neg hout]
    cases hk : hangul? c.toNat with
    | some k => exact fun h : k = .regional => hangul?_ne_regional _ (h ▸ hk)
    | none =>
      iterate 5 refine iteInduction (motive := (· ≠ Class.regional)) (fun _ => nofun) fun _ => ?_
      nofun
  exact ⟨⟨c.toNat - 0x1F1E6, by omega⟩, by simp; omega⟩

/-- A regional indicator takes one column. -/
theorem charWidth_of_regional {c : Char} (h : Cluster.classOf c = .regional) : charWidth c = 1 := by
  have hplain : ∀ i : Fin 26, (invisibleRanges.has (0x1F1E6 + i) || combiningRanges.has (0x1F1E6 + i) ||
      wideRanges.has (0x1F1E6 + i)) = false := by decide +kernel
  obtain ⟨i, hi⟩ := Cluster.exists_of_regional h
  have hi' := hplain i
  simp only [Bool.or_eq_false_iff] at hi'
  unfold charWidth
  rw [hi]
  dsimp only
  rw [if_neg (by omega), if_neg (by omega), hi'.1.1, hi'.1.2, hi'.2]
  rfl

theorem charWidth_ne_zero_of_regional {c : Char} (h : Cluster.classOf c = .regional) : charWidth c ≠ 0 :=
  charWidth_of_regional h ▸ Nat.one_ne_zero

namespace Cluster

/-! ## columns in a context -/

/-- The columns of the characters after `x` and of the cluster that `x` describes, which has `w` columns
    so far. -/
def spread (x : Context) (w : Nat) : List Char → Nat
  | [] => w
  | c :: cs =>
    if x.joins (classOf c) then spread (x.next (classOf c)) (if w = 0 then charWidth c else w) cs
    else w + spread (x.next (classOf c)) (charWidth c) cs

/-- The columns of the clusters that begin after `x`. -/
def rest (x : Context) : List Char → Nat
  | [] => 0
  | c :: cs =>
    if x.joins (classOf c) then rest (x.next (classOf c)) cs
    else spread (x.next (classOf c)) (charWidth c) cs

/-- The columns of a sequence of characters. -/
def width (cs : List Char) : Nat :=
  (split cs).foldr (clusterWidth · + ·) 0

theorem spread_eq_foldr (x : Context) (before cs : List Char) :
    spread x (clusterWidth before) cs = clusterWidth (before ++ (splitFrom x cs).1) +
      (splitFrom x cs).2.foldr (clusterWidth · + ·) 0 := by
  induction cs generalizing x before with
  | nil => simp [spread, splitFrom]
  | cons c cs ih =>
    have hsame := ih (x.next (classOf c)) (before ++ [c])
    have hnew := ih (x.next (classOf c)) [c]
    rw [clusterWidth_append_singleton] at hsame
    rw [spread, splitFrom]
    dsimp only
    split
    · rw [hsame, List.append_assoc]
      rfl
    · rw [← clusterWidth_singleton, hnew]
      simp

theorem width_cons (c : Char) (cs : List Char) :
    width (c :: cs) = spread (.start (classOf c)) (charWidth c) cs := by
  rw [← clusterWidth_singleton, spread_eq_foldr, width, split]
  simp

theorem spread_of_ne_zero (x : Context) {w : Nat} (hw : w ≠ 0) (cs : List Char) :
    spread x w cs = w + rest x cs := by
  induction cs generalizing x with
  | nil => rfl
  | cons c cs ih =>
    rw [spread, rest]
    split
    · exact ih _
    · rfl

theorem rest_le_spread (x : Context) (w : Nat) (cs : List Char) : rest x cs ≤ spread x w cs := by
  induction cs generalizing x w with
  | nil => exact Nat.zero_le w
  | cons c cs ih =>
    rw [spread, rest]
    split
    · exact ih _ _
    · exact Nat.le_add_left _ _

/-- A cluster that is tied to the one before it takes no more columns than by itself. -/
theorem spread_tied_le {x : Context} {v m : Nat} {cs : List Char} (h : spread x v cs ≤ m) (w : Nat) :
    spread x (if w = 0 then v else w) cs ≤ w + m := by
  by_cases hw : w = 0
  · simpa [hw] using h
  · rw [if_neg hw, spread_of_ne_zero x hw]
    exact Nat.add_le_add_left (Nat.le_trans (rest_le_spread x v cs) h) w

/-! ## contexts that tie more -/

/-- What comes after `x` is tied to it if it is tied to `y`. -/
structure Context.Covers (x y : Context) : Prop where
  last : x.last = y.last
  pictograph : y.pictograph = true → x.pictograph = true
  regional : x.last = .regional → x.oddRegional = y.oddRegional

/-- Only after a joiner and after a regional indicator the class of the last character does not tell all. -/
theorem Context.joins_eq {x y : Context} {k : Class} (hlast : x.last = y.last)
    (hjoiner : ¬ (y.last = .joiner ∧ k = .pictograph)) (hregional : ¬ (y.last = .regional ∧ k = .regional)) :
    x.joins k = y.joins k := by
  unfold joins
  rw [hlast]
  split
  all_goals try rfl
  · next h => exact absurd ⟨h, rfl⟩ hjoiner
  · next h => exact absurd ⟨h, rfl⟩ hregional

theorem Context.joins_joiner {x : Context} (h : x.last = .joiner) : x.joins .pictograph = x.pictograph := by
  simp [joins, h]

theorem Context.joins_regional {x : Context} (h : x.last = .regional) :
    x.joins .regional = x.oddRegional := by
  simp [joins, h]

theorem Context.Covers.joins {x y : Context} (h : x.Covers y) (k : Class) (hk : y.joins k = true) :
    x.joins k = true := by
  by_cases hjoiner : y.last = .joiner ∧ k = .pictograph
  · obtain ⟨hlast, rfl⟩ := hjoiner
    rw [joins_joiner hlast] at hk
    rw [joins_joiner (h.last.trans hlast)]
    exact h.pictograph hk
  · by_cases hregional : y.last = .regional ∧ k = .regional
    · obtain ⟨hlast, rfl⟩ := hregional
      have hlast' := h.last.trans hlast
      rw [joins_regional hlast] at hk
      rw [joins_regional hlast', h.regional hlast', hk]
    · rw [joins_eq h.last hjoiner hregional, hk]

theorem Context.Covers.next {x y : Context} (h : x.Covers y) (k : Class) : (x.next k).Covers (y.next k) := by
  refine ⟨rfl, ?_, fun _ => ?_⟩
  · simp only [Context.next, h.last, decide_eq_true_eq]
    exact Or.imp_right fun ⟨hpictograph, hrest⟩ => ⟨h.pictograph hpictograph, hrest⟩
  · by_cases hlast : x.last = .regional
    · simp [Context.next, ← h.last, h.regional hlast]
    · simp [Context.next, ← h.last, hlast]

/-- **What is tied takes no more columns** than what is not. -/
theorem spread_le_of_covers {x y : Context} (h : x.Covers y) (w : Nat) (cs : List Char) :
    spread x w cs ≤ spread y w cs := by
  induction cs generalizing x y w with
  | nil => exact Nat.le_refl w
  | cons c cs ih =>
    have hnext := h.next (classOf c)
    rw [spread, spread]
    cases hy : y.joins (classOf c) with
    | true =>
      rw [h.joins _ hy]
      exact ih hnext _
    | false =>
      cases hx : x.joins (classOf c) with
      | false => exact Nat.add_le_add_left (ih hnext _) w
      | true => exact spread_tied_le (ih hnext _) w

/-! ## regional indicators -/

/-- The context after an odd or an even number of regional indicators. -/
def Context.flag (odd : Bool) : Context := ⟨.regional, false, odd⟩

theorem Context.next_flag {k : Class} (hk : k ≠ .regional) (odd : Bool) :
    (flag odd).next k = (flag false).next k := by
  simp [next, flag, hk]

/-- Shifting the pairs of regional indicators costs no more than one column. -/
theorem rest_flag_le (cs : List Char) :
    rest (.flag true) cs ≤ rest (.flag false) cs ∧ rest (.flag false) cs ≤ 1 + rest (.flag true) cs := by
  induction cs with
  | nil => exact ⟨Nat.le_refl 0, Nat.zero_le _⟩
  | cons c cs ih =>
    by_cases hc : classOf c = .regional
    · have hodd : rest (.flag true) (c :: cs) = rest (.flag false) cs := by
        rw [rest, hc]
        rfl
      have heven : rest (.flag false) (c :: cs) = 1 + rest (.flag true) cs := by
        rw [rest, hc, charWidth_of_regional hc, ← spread_of_ne_zero _ Nat.one_ne_zero]
        rfl
      rw [hodd, heven]
      exact ⟨ih.2, Nat.add_le_add_left ih.1 1⟩
    · have hjoins : (Context.flag true).joins (classOf c) = (Context.flag false).joins (classOf c) :=
        Context.joins_eq rfl (fun h => nomatch h.1) fun h => hc h.2
      have heq : rest (.flag true) (c :: cs) = rest (.flag false) (c :: cs) := by
        rw [rest, rest, hjoins, Context.next_flag hc true]
      rw [heq]
      exact ⟨Nat.le_refl _, Nat.le_add_left _ 1⟩

/-- **Characters take no more columns after others** than by themselves. -/
theorem spread_le {x : Context} {w : Nat} (hx : x.last = .regional → w ≠ 0) (cs : List Char) :
    spread x w cs ≤ w + width cs := by
  cases cs with
  | nil => exact Nat.le_add_right w _
  | cons c cs =>
    rw [spread, width_cons]
    by_cases hflag : classOf c = .regional ∧ x.last = .regional ∧ x.oddRegional = true
    · -- here the indicator ends a pair, which by itself it would begin
      obtain ⟨hc, hlast, hodd⟩ := hflag
      have hjoins : x.joins .regional = true := (Context.joins_regional hlast).trans hodd
      have hnext : x.next .regional = .flag false := by simp [Context.next, Context.flag, hlast, hodd]
      have hstart : Context.start .regional = .flag true := rfl
      rw [hc, if_pos hjoins, if_neg (hx hlast), charWidth_of_regional hc, hnext, hstart,
        spread_of_ne_zero _ (hx hlast), spread_of_ne_zero _ Nat.one_ne_zero]
      exact Nat.add_le_add_left (rest_flag_le cs).2 w
    · have hcovers : (x.next (classOf c)).Covers (.start (classOf c)) := by
        refine ⟨rfl, fun h => ?_, fun h => ?_⟩
        · simpa [Context.next] using .inl (by simpa [Context.start] using h)
        · have hc : classOf c = .regional := h
          simpa [Context.next, Context.start, hc, imp_iff_not_or] using hflag
      have hle := spread_le_of_covers hcovers (charWidth c) cs
      split
      · exact spread_tied_le hle w
      · exact Nat.add_le_add_left hle w

theorem spread_append_le {x : Context} {w : Nat} (hx : x.last = .regional → w ≠ 0) (cs ds : List Char) :
    spread x w (cs ++ ds) ≤ spread x w cs + width ds := by
  induction cs generalizing x w with
  | nil => exact spread_le hx ds
  | cons c cs ih =>
    have hc : (x.next (classOf c)).last = .regional → charWidth c ≠ 0 := charWidth_ne_zero_of_regional
    rw [List.cons_append, spread, spread]
    split
    · refine ih fun h => ?_
      split
      · exact hc h
      · assumption
    · rw [Nat.add_assoc]
      exact Nat.add_le_add_left (ih hc) w

/-- **The columns of a sequence are at most those of its parts.** -/
theorem width_append_le (cs ds : List Char) : width (cs ++ ds) ≤ width cs + width ds := by
  cases cs with
  | nil => exact Nat.le_add_left _ _
  | cons c cs =>
    rw [List.cons_append, width_cons, width_cons]
    exact spread_append_le charWidth_ne_zero_of_regional cs ds

end Cluster

theorem isMeasure_displayWidth : Layout.IsMeasure displayWidth where
  nil := by simp [displayWidth, Utf8.decode, Utf8.pieces, Cluster.split]
  space := by decide +kernel
  append s t ht := by
    unfold displayWidth
    rw [Utf8.decode_append s ht]
    exact Cluster.width_append_le _ _

end Text

end TexTidy
