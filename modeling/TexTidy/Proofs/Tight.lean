import TexTidy.Proofs.Writing

/-!
# TexTidy.Proofs.Tight

The ends of lines. A line break strips the blanks in front of it. What is written before them stays as it is,
as long as it is *tight*: nothing can be stripped from its end (`stripEnd_append`).

The blank of a control space is not stripped. Which blank is one is told by the backslashes before it, so a
text also has to be *even* where such a command can follow.
-/

namespace TexTidy

open Bytes (ink)

theorem Bytes.count_spaces (n : Nat) : (spaces n).count Byte.newline = 0 :=
  List.count_eq_zero.2 fun hmem => by cases List.eq_of_mem_replicate hmem

/-! ## the ends of lines -/

namespace Text

/-- No blank can be stripped from the end of the text. -/
def Tight (s : Bytes) : Prop :=
  stripEnd isPad s = s

/-- The text does not end in a backslash that waits for the name of a command. -/
def Even (s : Bytes) : Prop :=
  endsEscaped s.reverse = false

variable {s t w : Bytes} {b : UInt8}

theorem tight_append (ht : t.getLast? = some b) (hb : isPad b = false) : Tight (s ++ t) := by
  obtain ⟨t, rfl⟩ := List.getLast?_eq_some_iff.1 ht
  simp [Tight, stripEnd, stripReversed, hb]

theorem even_append (ht : t.getLast? = some b) (hb : b ≠ Byte.backslash) : Even (s ++ t) := by
  obtain ⟨t, rfl⟩ := List.getLast?_eq_some_iff.1 ht
  simp [Even, endsEscaped, hb]

/-- A backslash after an even number of them waits for a name. -/
theorem endsEscaped_of_even (hs : Even s) : endsEscaped (s ++ [Byte.backslash]).reverse = true := by
  simp only [Even, endsEscaped, beq_eq_false_iff_ne] at hs
  simp only [endsEscaped, List.reverse_append, List.reverse_singleton, List.singleton_append,
    List.takeWhile_cons, beq_self_eq_true, if_pos, List.length_cons, beq_iff_eq]
  omega

/-- The blank of a control space stays. -/
theorem tight_control (hs : Even s) : Tight (s ++ [Byte.backslash, b]) := by
  cases hb : isPad b with
  | false => exact tight_append rfl hb
  | true =>
    have hescaped := endsEscaped_of_even hs
    rw [List.reverse_append, List.reverse_singleton, List.singleton_append] at hescaped
    simp [Tight, stripEnd, stripReversed, hb, show isPad Byte.backslash = false from rfl, hescaped]

/-- A backslash can be a name. -/
theorem even_control (hs : Even s) : Even (s ++ [Byte.backslash, b]) := by
  by_cases hb : b = Byte.backslash
  · subst hb
    have hescaped := endsEscaped_of_even hs
    simp only [Even, endsEscaped, List.reverse_append, List.reverse_cons, List.reverse_nil,
      List.nil_append, List.cons_append, List.takeWhile_cons, beq_self_eq_true, if_pos,
      List.length_cons, beq_iff_eq, beq_eq_false_iff_ne] at hescaped ⊢
    omega
  · exact even_append rfl hb

/-- What stays of a tight text and blanks behind it. -/
theorem stripReversed_append {pads rest : Bytes} (hpads : ∀ a ∈ pads, isPad a = true)
    (hrest : stripReversed isPad rest = rest) :
    ∃ kept, kept <:+ pads ∧ stripReversed isPad (pads ++ rest) = kept ++ rest := by
  have hdrop : (pads ++ rest).dropWhile isPad = rest.dropWhile isPad := by
    rw [List.dropWhile_append_of_pos hpads]
  have htake : (pads ++ rest).takeWhile isPad = pads ++ rest.takeWhile isPad := by
    rw [List.takeWhile_append_of_pos hpads]
  unfold stripReversed at hrest ⊢
  dsimp only at hrest ⊢
  rw [hdrop, htake, List.getLast?_append]
  cases hlast : (rest.takeWhile isPad).getLast? with
  | some a =>
    -- the tight text ends in a control space
    rw [hlast] at hrest
    exact ⟨[], List.nil_suffix, by simpa using hrest⟩
  | none =>
    have hnone : rest.dropWhile isPad = rest := by
      have htake : rest.takeWhile isPad = [] := List.getLast?_eq_none_iff.1 hlast
      simpa [htake] using List.takeWhile_append_dropWhile (p := isPad) (l := rest)
    rw [hnone]
    cases hpad : pads.getLast? with
    | none =>
      cases List.getLast?_eq_none_iff.1 hpad
      exact ⟨[], List.nil_suffix, rfl⟩
    | some a =>
      obtain ⟨pads', rfl⟩ := List.getLast?_eq_some_iff.1 hpad
      dsimp only [Option.none_or, Option.or_none]
      split
      · exact ⟨[a], List.suffix_append _ _, rfl⟩
      · exact ⟨[], List.nil_suffix, rfl⟩

/-- **A tight text stays** when blanks behind it are stripped. -/
theorem stripEnd_append (hs : Tight s) (w : Bytes) :
    ∃ kept pads, w = kept ++ pads ∧ (∀ a ∈ pads, isPad a = true) ∧
      stripEnd isPad (s ++ w) = s ++ kept := by
  have hsplit : w = (w.reverse.dropWhile isPad).reverse ++ (w.reverse.takeWhile isPad).reverse := by
    rw [← List.reverse_append, List.takeWhile_append_dropWhile, List.reverse_reverse]
  have hpads : ∀ a ∈ w.reverse.takeWhile isPad, isPad a = true :=
    fun a ha => List.all_eq_true.1 List.all_takeWhile a ha
  generalize hbody : (w.reverse.dropWhile isPad).reverse = body at hsplit
  generalize w.reverse.takeWhile isPad = pads at hsplit hpads
  -- what is left of `w` ends in a byte that is no blank of the line, or nothing is left of it
  have htight : Tight (s ++ body) := by
    cases hlast : body.getLast? with
    | none =>
      rw [List.getLast?_eq_none_iff.1 hlast, List.append_nil]
      exact hs
    | some b =>
      refine tight_append hlast ?_
      rw [← hbody, List.getLast?_reverse] at hlast
      have hhead := List.head?_dropWhile_not isPad w.reverse
      rwa [hlast] at hhead
  have hrest : stripReversed isPad (s ++ body).reverse = (s ++ body).reverse := by
    rw [← List.reverse_inj, List.reverse_reverse]
    exact htight
  obtain ⟨kept, ⟨lost, hlost⟩, hstrip⟩ := stripReversed_append hpads hrest
  refine ⟨body ++ kept.reverse, lost.reverse, ?_, fun a ha => hpads a ?_, ?_⟩
  · rw [hsplit, ← hlost, List.reverse_append, List.append_assoc]
  · rw [← hlost]
    exact List.mem_append_left _ (List.mem_reverse.1 ha)
  · rw [stripEnd, hsplit, ← List.append_assoc, List.reverse_append, List.reverse_reverse, hstrip]
    simp

/-- Backslashes are counted from the end, so what stands before another byte does not count. -/
theorem endsEscaped_append {a : Bytes} (ha : a.getLast? ≠ some Byte.backslash) (rev : Bytes) :
    endsEscaped (rev ++ a.reverse) = endsEscaped rev := by
  have hstop : a.reverse.takeWhile (· == Byte.backslash) = [] := by
    rw [← List.head?_reverse] at ha
    cases hrev : a.reverse with
    | nil => rfl
    | cons c rest =>
      rw [hrev, List.head?_cons] at ha
      rw [List.takeWhile_cons_of_neg]
      simpa using fun h : c = Byte.backslash => ha (by rw [h])
  have htake : (rev ++ a.reverse).takeWhile (· == Byte.backslash) = rev.takeWhile (· == Byte.backslash) := by
    rw [List.takeWhile_append]
    split
    · rw [hstop, List.append_nil]
      next h => exact (List.takeWhile_prefix _).eq_of_length h |>.symm
    · rfl
  rw [endsEscaped, htake, endsEscaped]

/-- A tight text that ends in a blank ends in a control space. -/
theorem escaped_of_tight {m z : Bytes} (h : Tight (m ++ z)) (hz : ∀ a ∈ z, isPad a = true) (hne : z ≠ []) :
    z.length = 1 ∧ endsEscaped m.reverse = true := by
  have hrev : stripReversed isPad (z.reverse ++ m.reverse) = z.reverse ++ m.reverse := by
    rw [← List.reverse_append, ← List.reverse_inj, List.reverse_reverse]
    exact h
  have hpads : ∀ a ∈ z.reverse, isPad a = true := fun a ha => hz a (List.mem_reverse.1 ha)
  have hlength : 0 < z.length := List.length_pos_iff.2 hne
  have hbody := (List.dropWhile_suffix (p := isPad) (l := m.reverse)).length_le
  unfold stripReversed at hrev
  dsimp only at hrev
  rw [List.dropWhile_append_of_pos hpads, List.takeWhile_append_of_pos hpads, List.getLast?_append] at hrev
  split at hrev
  · next hnone =>
    rw [Option.or_eq_none_iff, List.getLast?_eq_none_iff, List.getLast?_eq_none_iff] at hnone
    exact absurd (List.reverse_eq_nil_iff.1 hnone.2) hne
  · split at hrev
    · next hescaped =>
      have hcount := congrArg List.length hrev
      simp only [List.length_cons, List.length_append, List.length_reverse] at hcount hbody
      have hsame : m.reverse.dropWhile isPad = m.reverse :=
        List.IsSuffix.eq_of_length (List.dropWhile_suffix isPad) (by rw [List.length_reverse]; omega)
      rw [hsame] at hescaped
      exact ⟨by omega, hescaped⟩
    · have hcount := congrArg List.length hrev
      simp only [List.length_append, List.length_reverse] at hcount hbody
      omega

/-- **Stripping a text alone does not reach into a tight text it ends**, if the text does not begin behind
    a backslash. -/
theorem exists_stripEnd_space {a t x w : Bytes} (ha : a.getLast? ≠ some Byte.backslash) (hx : Tight x)
    (hw : ink w = []) (h : a ++ t = x ++ w) :
    ∃ w', a ++ stripPadding t = x ++ w' ∧ ink w' = [] := by
  have hsplit : t = (t.reverse.dropWhile (· == Byte.space)).reverse ++
      (t.reverse.takeWhile (· == Byte.space)).reverse := by
    rw [← List.reverse_append, List.takeWhile_append_dropWhile, List.reverse_reverse]
  have hspaces : ∀ c ∈ t.reverse.takeWhile (· == Byte.space), c = Byte.space := fun c hc => by
    simpa using List.all_eq_true.1 List.all_takeWhile c hc
  unfold stripPadding stripEnd stripReversed
  dsimp only
  generalize t.reverse.takeWhile (· == Byte.space) = lost at *
  generalize t.reverse.dropWhile (· == Byte.space) = body at *
  split
  · exact ⟨w, by rw [List.reverse_reverse, h], hw⟩
  · next c hlast =>
    have hc : c = Byte.space := hspaces c (List.mem_of_getLast? hlast)
    subst hc
    rw [hsplit, ← List.append_assoc] at h
    rcases List.append_eq_append_iff.1 h with ⟨z, hxz, hz⟩ | ⟨z, hbody, rfl⟩
    · -- the tight text ends in what is stripped
      by_cases hne : z = []
      · subst hne
        rw [List.append_nil] at hxz
        split
        · refine ⟨[Byte.space], by rw [hxz]; simp, rfl⟩
        · exact ⟨[], by rw [hxz, List.append_nil], rfl⟩
      · have hpads : ∀ c ∈ z, c = Byte.space := fun c hc =>
          hspaces c (List.mem_reverse.1 (hz ▸ List.mem_append_left _ hc))
        rw [hxz] at hx
        obtain ⟨hone, hescaped⟩ := escaped_of_tight hx (fun c hc => by rw [hpads c hc]; rfl) hne
        rw [List.reverse_append, List.reverse_reverse, endsEscaped_append ha] at hescaped
        obtain ⟨c, rfl⟩ := List.length_eq_one_iff.1 hone
        rw [if_pos hescaped, hxz, hpads c (by simp)]
        exact ⟨[], by simp, rfl⟩
    · rw [Bytes.ink_append, List.append_eq_nil_iff] at hw
      split
      · refine ⟨z ++ [Byte.space], ?_, by simp [hw.1]⟩
        rw [List.reverse_cons, ← List.append_assoc, hbody, List.append_assoc]
      · exact ⟨z, hbody, hw.1⟩

end Text

/-! ## line breaks -/

namespace Layout

theorem broken_tight {s : Bytes} (hs : Text.Tight s) (indent : Nat) :
    broken indent s = s ++ Byte.newline :: Bytes.spaces indent := by
  rw [broken, hs]

/-- Behind a tight text a line break adds one newline to the white space. -/
theorem broken_append {s w : Bytes} (hs : Text.Tight s) (hw : ink w = []) (indent : Nat) :
    ∃ w', broken indent (s ++ w) = s ++ w' ∧ ink w' = [] ∧
      w'.count Byte.newline = w.count Byte.newline + 1 := by
  obtain ⟨kept, pads, rfl, hpads, hstrip⟩ := Text.stripEnd_append hs w
  have hlost : pads.count Byte.newline = 0 :=
    List.count_eq_zero.2 fun hmem => by cases hpads _ hmem
  rw [Bytes.ink_append, List.append_eq_nil_iff] at hw
  refine ⟨kept ++ Byte.newline :: Bytes.spaces indent, ?_, ?_, ?_⟩
  · rw [broken, hstrip, List.append_assoc]
  · rw [Bytes.ink_append, hw.1, Bytes.ink_cons_of_blank (by decide), Bytes.ink_spaces, List.nil_append]
  · rw [List.count_append, List.count_cons_self, List.count_append, Bytes.count_spaces, hlost]

end Layout

end TexTidy
