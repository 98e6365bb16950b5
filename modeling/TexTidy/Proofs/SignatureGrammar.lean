import TexTidy.Signature

/-!
# TexTidy.Proofs.SignatureGrammar

The grammar of signatures. A signature is a sequence of items: blanks, the letters `m`, `o` and `s`, and an `O` with a
default value in braces. An item carries what makes it one, so every list of items can be written down, and the texts
that are accepted are exactly those (`parse_textAll`, `exists_items_of_parse`).

Reading passes over the text of an item and goes on behind it as if it began there (`items_textAll_append`). All the
rest follows: signatures that are put side by side list their arguments side by side, and blanks mean nothing.
-/

namespace TexTidy

/-- What a kind of argument stands for: the kind and the two delimiters. -/
def ArgKind.spec (kind : ArgKind) : ArgKind × Bytes × Bytes :=
  (kind, kind.opening, kind.closing)

namespace Signature

/-! ## the grammar -/

/-- An item of a signature. -/
inductive Item where
  | blank (b : UInt8) (known : b = Byte.space ∨ b = Byte.tab ∨ b = Byte.newline)
  | mandatory
  | optional
  | star
  /-- An optional argument with a default value, which ends at the first closing brace. -/
  | withDefault (value : Bytes) (unbroken : Byte.closeBrace ∉ value)

namespace Item

/-- An item as it is written. -/
def text : Item → Bytes
  | .blank b _ => [b]
  | .mandatory => bytes "m"
  | .optional => bytes "o"
  | .star => bytes "s"
  | .withDefault value _ => bytes "O\x7b" ++ value ++ bytes "\x7d"

/-- A blank. -/
def isBlank : Item → Bool
  | .blank _ _ => true
  | _ => false

/-- The argument that an item asks for, with its delimiters. -/
def spec? : Item → Option (ArgKind × Bytes × Bytes)
  | .blank _ _ => none
  | .mandatory => some (.mandatory, bytes "\x7b", bytes "\x7d")
  | .optional | .withDefault _ _ => some (.optional, bytes "[", bytes "]")
  | .star => some (.star, [], [])

/-- Items as they are written. -/
def textAll (xs : List Item) : Bytes :=
  xs.flatMap text

/-- The arguments that items ask for, in order. -/
def specs (xs : List Item) : List (ArgKind × Bytes × Bytes) :=
  xs.filterMap spec?

/-- The kind of the argument that an item asks for. -/
def kind? (x : Item) : Option ArgKind :=
  x.spec?.map Prod.fst

/-- The kinds of the arguments that items ask for. -/
def kinds (xs : List Item) : List ArgKind :=
  xs.filterMap kind?

theorem text_withDefault {value : Bytes} (h : Byte.closeBrace ∉ value) :
    (withDefault value h).text = 0x4F :: Byte.openBrace :: (value ++ [Byte.closeBrace]) := by
  have hopening : bytes "O\x7b" = [0x4F, Byte.openBrace] := by decide
  have hclosing : bytes "\x7d" = [Byte.closeBrace] := by decide
  simp [text, hopening, hclosing]

theorem spec?_eq_kind? (x : Item) : x.spec? = x.kind?.map ArgKind.spec := by
  cases x <;> rfl

theorem specs_eq_kinds (xs : List Item) : specs xs = (kinds xs).map ArgKind.spec := by
  rw [specs, kinds, List.map_filterMap]
  congr 1
  funext x
  exact spec?_eq_kind? x

theorem kinds_cons (x : Item) (xs : List Item) : kinds (x :: xs) = x.kind?.toList ++ kinds xs := by
  cases x <;> rfl

/-- Blanks ask for nothing. -/
theorem kinds_filter (xs : List Item) : kinds (xs.filter (!·.isBlank)) = kinds xs := by
  induction xs with
  | nil => rfl
  | cons x xs ih =>
    rw [kinds_cons, ← ih]
    cases x <;> rfl

end Item

open Item (textAll specs kinds)

/-! ## reading what was written -/

theorem isGap_iff {b : UInt8} : isGap b = true ↔ b = Byte.space ∨ b = Byte.tab ∨ b = Byte.newline := by
  simp [isGap, or_assoc]

theorem items_true_cons (b : UInt8) (s : Bytes) : items true (b :: s) = items (b != Byte.closeBrace) s := by
  rw [items.eq_def]
  rfl

/-- A default value is passed over, with the brace that closes it. -/
theorem items_default {value : Bytes} (h : Byte.closeBrace ∉ value) (s : Bytes) :
    items true (value ++ Byte.closeBrace :: s) = items false s := by
  induction value with
  | nil => exact items_true_cons _ s
  | cons b value ih =>
    obtain ⟨hb, hvalue⟩ := not_or.1 (mt List.mem_cons.2 h)
    have hopen : (b != Byte.closeBrace) = true := bne_iff_ne.2 (Ne.symm hb)
    rw [List.cons_append, items_true_cons, hopen, ih hvalue]

/-- An item is passed over, and its argument is put in front of those that follow. -/
theorem items_text_append (x : Item) (s : Bytes) :
    items false (x.text ++ s) = (items false s).map (x.kind?.toList ++ ·) := by
  cases x with
  | blank b known =>
    have hgap : isGap b = true := isGap_iff.2 known
    change items false (b :: s) = _
    rw [items.eq_def]
    cases hitems : items false s <;> simp [hgap, hitems, Item.kind?, Item.spec?, Except.map]
  | mandatory | optional | star =>
    rw [items.eq_def]
    rfl
  | withDefault value unbroken =>
    have htext : (Item.withDefault value unbroken).text ++ s =
        0x4F :: Byte.openBrace :: (value ++ Byte.closeBrace :: s) := by
      simp [Item.text_withDefault]
    rw [htext, ← items_default unbroken s, items.eq_def]
    rfl

/-- **Items are passed over one by one.** -/
theorem items_textAll_append (xs : List Item) (s : Bytes) :
    items false (textAll xs ++ s) = (items false s).map (kinds xs ++ ·) := by
  induction xs with
  | nil => cases h : items false s <;> simp [Except.map, textAll, kinds, h]
  | cons x xs ih =>
    rw [textAll, List.flatMap_cons, List.append_assoc, items_text_append, ← textAll, ih, Item.kinds_cons]
    cases items false s <;> simp [Except.map]

theorem parse_textAll (xs : List Item) : parse (textAll xs) = .ok (kinds xs) := by
  have hitems : items false (textAll xs) = .ok (kinds xs ++ []) := by
    rw [← List.append_nil (textAll xs), items_textAll_append]
    rfl
  rw [parse, hitems, List.append_nil]
  rfl

/-! ## writing what was read -/

/-- What `items` accepts: items, or if a default value is open, the rest of that value and then items. -/
def Accepted (inDefault : Bool) (s : Bytes) (args : List ArgKind) : Prop :=
  if inDefault then
    ∃ value xs, Byte.closeBrace ∉ value ∧ s = value ++ Byte.closeBrace :: textAll xs ∧ kinds xs = args
  else ∃ xs, s = textAll xs ∧ kinds xs = args

/-- An item in front of accepted ones is accepted. -/
theorem Accepted.cons {s : Bytes} {args : List ArgKind} (x : Item) (h : Accepted false s args) :
    Accepted false (x.text ++ s) (x.kind?.toList ++ args) := by
  obtain ⟨xs, rfl, rfl⟩ := h
  exact ⟨x :: xs, rfl, Item.kinds_cons x xs⟩

/-- What is made of a result is there if the result is. -/
theorem map_eq_ok_iff {ε α β : Type} {x : Except ε α} {f : α → β} {b : β} :
    x.map f = .ok b ↔ ∃ a, x = .ok a ∧ b = f a := by
  cases x with
  | error e => simp [Except.map]
  | ok a => simp [Except.map, eq_comm]

theorem accepted_of_items {inDefault : Bool} {s : Bytes} {args : List ArgKind}
    (h : items inDefault s = .ok args) : Accepted inDefault s args := by
  fun_induction items inDefault s generalizing args with
  | case1 => cases h
  | case2 inDefault hclosed =>
    cases h
    rw [Accepted, if_neg hclosed]
    exact ⟨[], rfl, rfl⟩
  | case3 b s ih =>
    by_cases hb : b = Byte.closeBrace
    · subst hb
      obtain ⟨xs, rfl, rfl⟩ := ih h
      exact ⟨[], xs, by simp, rfl, rfl⟩
    · have hopen : (b != Byte.closeBrace) = true := bne_iff_ne.2 hb
      rw [hopen] at ih h
      obtain ⟨value, xs, hvalue, rfl, rfl⟩ := ih h
      exact ⟨b :: value, xs, by simp [Ne.symm hb, hvalue], rfl, rfl⟩
  | case4 inDefault b s hclosed hgap ih =>
    rw [eq_false_of_ne_true hclosed]
    exact (ih h).cons (.blank b (isGap_iff.1 hgap))
  | case5 inDefault b s hclosed _ hletter ih =>
    obtain ⟨args, hargs, rfl⟩ := map_eq_ok_iff.1 h
    rw [eq_false_of_ne_true hclosed, beq_iff_eq.1 hletter]
    exact (ih hargs).cons .mandatory
  | case6 inDefault b s hclosed _ _ hletter ih =>
    obtain ⟨args, hargs, rfl⟩ := map_eq_ok_iff.1 h
    rw [eq_false_of_ne_true hclosed, beq_iff_eq.1 hletter]
    exact (ih hargs).cons .optional
  | case7 inDefault b s hclosed _ _ _ hletter ih =>
    obtain ⟨args, hargs, rfl⟩ := map_eq_ok_iff.1 h
    rw [eq_false_of_ne_true hclosed, beq_iff_eq.1 hletter]
    exact (ih hargs).cons .star
  | case8 inDefault b hclosed _ _ _ _ hletter rest ih =>
    obtain ⟨args, hargs, rfl⟩ := map_eq_ok_iff.1 h
    rw [eq_false_of_ne_true hclosed, beq_iff_eq.1 hletter]
    obtain ⟨value, xs, hvalue, rfl, rfl⟩ := ih hargs
    exact ⟨.withDefault value hvalue :: xs, by simp [textAll, Item.text_withDefault], rfl⟩
  | case9 => cases h
  | case10 => cases h

/-- A text that is accepted is a sequence of items. -/
theorem exists_items_of_parse {s : Bytes} {args : List ArgKind} (h : parse s = .ok args) :
    ∃ xs, s = textAll xs ∧ kinds xs = args := by
  have hitems : items false s = .ok args := by
    unfold parse at h
    cases hs : items false s with
    | error cause => rw [hs] at h; cases h
    | ok others => rw [hs] at h; cases h; rfl
  exact accepted_of_items hitems

/-! ## all signatures -/

/-- **A signature is a sequence of items**, and what it lists is one argument for each item that is no blank, in order
    and with its delimiters. Hence two signatures side by side list the arguments of the first and then those of the
    second, and items that are the same but for blanks list the same arguments. -/
theorem parse_follows_grammar :
    (∀ s, (∃ args, parse s = .ok args) ↔ ∃ xs, s = textAll xs) ∧
    (∀ s args xs, parse s = .ok args → s = textAll xs → args.map ArgKind.spec = specs xs) ∧
    (∀ a b args args', parse a = .ok args → parse b = .ok args' → parse (a ++ b) = .ok (args ++ args')) ∧
    ∀ xs ys : List Item, xs.filter (!·.isBlank) = ys.filter (!·.isBlank) →
      parse (textAll xs) = parse (textAll ys) := by
  refine ⟨fun s => ⟨?_, ?_⟩, ?_, ?_, ?_⟩
  · rintro ⟨args, h⟩
    obtain ⟨xs, hxs, -⟩ := exists_items_of_parse h
    exact ⟨xs, hxs⟩
  · rintro ⟨xs, rfl⟩
    exact ⟨kinds xs, parse_textAll xs⟩
  · rintro s args xs h rfl
    rw [parse_textAll] at h
    cases h
    exact (Item.specs_eq_kinds xs).symm
  · intro a b args args' ha hb
    obtain ⟨xs, rfl, rfl⟩ := exists_items_of_parse ha
    obtain ⟨ys, rfl, rfl⟩ := exists_items_of_parse hb
    have hboth := parse_textAll (xs ++ ys)
    rwa [textAll, List.flatMap_append, kinds, List.filterMap_append] at hboth
  · intro xs ys h
    rw [parse_textAll, parse_textAll, ← Item.kinds_filter xs, h, Item.kinds_filter]

/-- A default value that holds letters, blanks and an opening brace, between other items. -/
theorem parse_follows_grammar_default :
    ∃ xs, bytes "s O\x7bm O\x7bo\x7d" = textAll xs ∧ specs xs = [ArgKind.star.spec, ArgKind.optional.spec] ∧
      parse (bytes "s O\x7bm O\x7bo\x7d" ++ bytes "\tm") = .ok [.star, .optional, .mandatory] ∧
      parse (textAll (xs ++ [.blank Byte.tab (by decide), .mandatory])) = parse (textAll (xs ++ [.mandatory])) := by
  obtain ⟨haccepts, hlists, hboth, hblanks⟩ := parse_follows_grammar
  have hleft : parse (bytes "s O\x7bm O\x7bo\x7d") = .ok [.star, .optional] := rfl
  have hright : parse (bytes "\tm") = .ok [.mandatory] := rfl
  obtain ⟨xs, hxs⟩ := (haccepts _).1 ⟨_, hleft⟩
  refine ⟨xs, hxs, (hlists _ _ xs hleft hxs).symm, hboth _ _ _ _ hleft hright, hblanks _ _ ?_⟩
  rw [List.filter_append, List.filter_append]
  rfl

end Signature

end TexTidy
