import TexTidy.Bytes

/-!
# TexTidy.Proofs.Greedy

Greedy wrapping. Words are put on a line as long as there is room for the next one and a space before it, and the
next line begins with the first word that is too much. This is a way of breaking the words into lines, each of which
fits or holds one word only (`isBreaking_wrap`), and there is none with fewer lines (`length_wrap_le`).

That greed pays is seen from the line that is open: if it is longer, the words that are left take at least as many
lines, and at most one line more (`length_wrapOnto_le`). So a line that was ended early gains nothing.
-/

namespace TexTidy.Wrap

/-- The columns of words on one line, with a space between any two of them. -/
def columns (measure : Bytes → Nat) (line : List Bytes) : Nat :=
  (line.map measure).foldr (· + ·) 0 + (line.length - 1)

/-- Lines for the words behind those that are on a line already: a word goes on that line if there is room. -/
def wrapOnto (measure : Bytes → Nat) (room : Int) (line : List Bytes) : List Bytes → List (List Bytes)
  | [] => [line]
  | w :: ws =>
    if columns measure (line ++ [w]) ≤ room then wrapOnto measure room (line ++ [w]) ws
    else line :: wrapOnto measure room [w] ws

/-- The lines of words that are wrapped greedily. -/
def wrap (measure : Bytes → Nat) (room : Int) : List Bytes → List (List Bytes)
  | [] => []
  | w :: ws => wrapOnto measure room [w] ws

/-- The lines hold the words in order, and each of them fits or holds one word only. -/
structure IsBreaking (measure : Bytes → Nat) (room : Int) (words : List Bytes) (lines : List (List Bytes)) :
    Prop where
  flatten : lines.flatten = words
  filled : ∀ line ∈ lines, line ≠ []
  fits : ∀ line ∈ lines, columns measure line ≤ room ∨ line.length = 1

/-- No line has room for the word after it. -/
def IsFull (measure : Bytes → Nat) (room : Int) : List (List Bytes) → Prop
  | line :: next :: lines =>
    (∀ w ∈ next.head?, room < columns measure (line ++ [w])) ∧ IsFull measure room (next :: lines)
  | _ => True

variable (measure : Bytes → Nat) (room : Int)

/-! ## columns -/

@[simp] theorem columns_singleton (w : Bytes) : columns measure [w] = measure w := by
  simp [columns]

/-- One more word takes its columns and one for the space before it. -/
theorem columns_concat {line : List Bytes} (h : line ≠ []) (w : Bytes) :
    columns measure (line ++ [w]) = columns measure line + 1 + measure w := by
  have hlength : 0 < line.length := List.length_pos_iff.2 h
  have hsum : ∀ ns : List Nat, (ns ++ [measure w]).foldr (· + ·) 0 = ns.foldr (· + ·) 0 + measure w := by
    intro ns
    induction ns with
    | nil => simp
    | cons n ns ih => simp [ih, Nat.add_assoc]
  simp only [columns, List.map_append, List.map_cons, List.map_nil, List.length_append, List.length_cons,
    List.length_nil, hsum]
  omega

theorem columns_le_append {line : List Bytes} (h : line ≠ []) (more : List Bytes) :
    columns measure line ≤ columns measure (line ++ more) := by
  induction more generalizing line with
  | nil => simp
  | cons w more ih =>
    have hword := columns_concat measure h w
    have hrest := @ih (line ++ [w]) (by simp)
    rw [List.append_cons]
    omega

/-! ## greedy lines -/

/-- The first line goes on with what is on it already. -/
theorem exists_wrapOnto_eq (line ws : List Bytes) :
    ∃ more lines, wrapOnto measure room line ws = (line ++ more) :: lines := by
  induction ws generalizing line with
  | nil => exact ⟨[], [], by simp [wrapOnto]⟩
  | cons w ws ih =>
    by_cases hfits : columns measure (line ++ [w]) ≤ room
    · obtain ⟨more, lines, heq⟩ := ih (line ++ [w])
      exact ⟨w :: more, lines, by simp [wrapOnto, hfits, heq]⟩
    · exact ⟨[], wrapOnto measure room [w] ws, by simp [wrapOnto, hfits]⟩

theorem isBreaking_wrapOnto {line : List Bytes} (hne : line ≠ [])
    (hline : columns measure line ≤ room ∨ line.length = 1) (ws : List Bytes) :
    IsBreaking measure room (line ++ ws) (wrapOnto measure room line ws) := by
  induction ws generalizing line with
  | nil => exact ⟨by simp [wrapOnto], by simp [wrapOnto, hne], by simpa [wrapOnto] using hline⟩
  | cons w ws ih =>
    by_cases hfits : columns measure (line ++ [w]) ≤ room
    · simpa [wrapOnto, hfits] using ih (by simp) (.inl hfits)
    · obtain ⟨hflatten, hfilled, hrest⟩ := @ih [w] (by simp) (.inr rfl)
      simp only [wrapOnto, hfits, if_false]
      exact ⟨by simp [hflatten], List.forall_mem_cons.2 ⟨hne, hfilled⟩, List.forall_mem_cons.2 ⟨hline, hrest⟩⟩

/-- **Greedy lines are a breaking** of the words. -/
theorem isBreaking_wrap (words : List Bytes) : IsBreaking measure room words (wrap measure room words) := by
  cases words with
  | nil => exact ⟨rfl, by simp [wrap], by simp [wrap]⟩
  | cons w ws => exact @isBreaking_wrapOnto measure room [w] (by simp) (.inr rfl) ws

theorem isFull_wrapOnto (line ws : List Bytes) : IsFull measure room (wrapOnto measure room line ws) := by
  induction ws generalizing line with
  | nil => simp [wrapOnto, IsFull]
  | cons w ws ih =>
    by_cases hfits : columns measure (line ++ [w]) ≤ room
    · simpa [wrapOnto, hfits] using ih (line ++ [w])
    · obtain ⟨more, lines, heq⟩ := exists_wrapOnto_eq measure room [w] ws
      have hnext := ih [w]
      simp only [wrapOnto, hfits, if_false, heq] at hnext ⊢
      exact ⟨by simpa using hfits, hnext⟩

/-- **Greedy lines are full.** -/
theorem isFull_wrap (words : List Bytes) : IsFull measure room (wrap measure room words) := by
  cases words with
  | nil => trivial
  | cons w ws => exact isFull_wrapOnto measure room [w] ws

/-! ## fewest lines -/

/-- **A longer open line costs at most one line more**, and it saves none. -/
theorem length_wrapOnto_le {short long : List Bytes} (hshort : short ≠ []) (hlong : long ≠ [])
    (hle : columns measure short ≤ columns measure long) (ws : List Bytes) :
    (wrapOnto measure room short ws).length ≤ (wrapOnto measure room long ws).length ∧
      (wrapOnto measure room long ws).length ≤ (wrapOnto measure room short ws).length + 1 := by
  induction ws generalizing short long with
  | nil => simp [wrapOnto]
  | cons w ws ih =>
    have hs := columns_concat measure hshort w
    have hl := columns_concat measure hlong w
    have hboth := @ih (short ++ [w]) (long ++ [w]) (by simp) (by simp) (by omega)
    have hnew := @ih [w] (short ++ [w]) (by simp) (by simp) (by rw [columns_singleton]; omega)
    rw [wrapOnto, wrapOnto]
    split <;> split <;> grind

/-- Words that fit on the open line are put there. -/
theorem wrapOnto_append {line words : List Bytes} (hne : line ≠ [])
    (hfits : words ≠ [] → columns measure (line ++ words) ≤ room) (ws : List Bytes) :
    wrapOnto measure room line (words ++ ws) = wrapOnto measure room (line ++ words) ws := by
  induction words generalizing line with
  | nil => simp
  | cons w words ih =>
    rw [List.append_cons] at hfits ⊢
    have hle := @columns_le_append measure (line ++ [w]) (by simp) words
    have hall := hfits (by simp)
    rw [List.cons_append, wrapOnto, if_pos (by omega), ih (by simp) fun _ => hall]

/-- An open line costs at most one line. -/
theorem length_wrapOnto_le_wrap {line : List Bytes} (hne : line ≠ []) (ws : List Bytes) :
    (wrapOnto measure room line ws).length ≤ (wrap measure room ws).length + 1 := by
  cases ws with
  | nil => simp [wrapOnto]
  | cons w ws =>
    have hword := columns_concat measure hne w
    have hnew := @length_wrapOnto_le measure room [w] (line ++ [w]) (by simp) (by simp)
      (by rw [columns_singleton]; omega) ws
    rw [wrapOnto, wrap]
    split <;> grind

/-- **No breaking has fewer lines** than the greedy one. -/
theorem length_wrap_le {words : List Bytes} {lines : List (List Bytes)} (h : IsBreaking measure room words lines) :
    (wrap measure room words).length ≤ lines.length := by
  obtain ⟨rfl, hfilled, hfits⟩ := h
  induction lines with
  | nil => simp [wrap]
  | cons line lines ih =>
    obtain ⟨hne, hfilled'⟩ := List.forall_mem_cons.1 hfilled
    obtain ⟨hline, hfits'⟩ := List.forall_mem_cons.1 hfits
    obtain ⟨w, rest, rfl⟩ := List.exists_cons_of_ne_nil hne
    -- The first greedy line takes at least the words of the first line.
    have hfirst : wrap measure room ((w :: rest) :: lines).flatten =
        wrapOnto measure room (w :: rest) lines.flatten := by
      refine @wrapOnto_append measure room [w] rest (by simp) (fun hrest => ?_) lines.flatten
      exact hline.resolve_right (by simpa using hrest)
    have hopen := length_wrapOnto_le_wrap measure room hne lines.flatten
    have hothers := ih hfilled' hfits'
    rw [hfirst, List.length_cons]
    omega

end TexTidy.Wrap
