import TexTidy.Bytes

/-!
# TexTidy.Source.Cursor

A place in a source text. A cursor is a value: to look ahead is to advance it, and to go back is to use
the old one again.
-/

namespace TexTidy

/-- A half-open range of byte offsets. -/
structure Span where
  start : Nat := 0
  stop : Nat := 0
  deriving DecidableEq, Repr, Inhabited

/-- A place in a source: what is left of the text, the offset where that begins, and whether something
    other than white space stands before it on its line. -/
structure Cursor where
  pos : Nat
  inked : Bool
  rest : Bytes
  deriving DecidableEq, Repr

/-- Whether a line has ink on it after one more byte. -/
def inkedAfter (inked : Bool) (b : UInt8) : Bool :=
  if b == Byte.newline then false
  else if isLineBlank b then inked
  else true

namespace Cursor

/-- The place at offset `n` of a source. -/
def ofOffset (src : Bytes) (n : Nat) : Cursor where
  pos := n
  inked := (src.take n).foldl inkedAfter false
  rest := src.drop n

/-- Moves over the next byte. -/
def step (c : Cursor) : Cursor :=
  match c.rest with
  | [] => c
  | b :: rest => ⟨c.pos + 1, inkedAfter c.inked b, rest⟩

/-- Moves over `n` bytes. -/
def advance : Nat → Cursor → Cursor
  | 0, c => c
  | n + 1, c => advance n c.step

/-- The next byte, unless the source ends here. -/
def peek? (c : Cursor) : Option UInt8 :=
  c.rest.head?

/-! ## Moving -/

/-- Moving over bytes drops them from what is left. -/
@[simp] theorem rest_advance (n : Nat) (c : Cursor) : (c.advance n).rest = c.rest.drop n := by
  induction n generalizing c with
  | zero => simp [advance]
  | succ n ih =>
    rw [advance, ih, step]
    cases h : c.rest <;> simp [h]

/-- Moving over bytes that are there counts them. -/
theorem pos_advance (n : Nat) (c : Cursor) (h : n ≤ c.rest.length) :
    (c.advance n).pos = c.pos + n := by
  induction n generalizing c with
  | zero => rfl
  | succ n ih =>
    obtain ⟨pos, inked, rest⟩ := c
    cases rest with
    | nil => simp at h
    | cons b rest =>
      rw [advance, ih]
      · simp only [step]; omega
      · simpa [step] using h

/-- A cursor that moves inside a source stays a place of that source. -/
theorem advance_ofOffset (src : Bytes) (m n : Nat) (h : m + n ≤ src.length) :
    (ofOffset src m).advance n = ofOffset src (m + n) := by
  induction n generalizing m with
  | zero => rfl
  | succ n ih =>
    have hm : m < src.length := by omega
    have hstep : (ofOffset src m).step = ofOffset src (m + 1) := by
      have hd : src.drop m = src[m] :: src.drop (m + 1) := List.drop_eq_getElem_cons hm
      have ht : src.take (m + 1) = src.take m ++ [src[m]] := List.take_succ_eq_append_getElem hm
      simp only [step, ofOffset, hd, ht, List.foldl_append, List.foldl_cons, List.foldl_nil]
    rw [advance, hstep, ih (m + 1) (by omega)]
    congr 1
    omega

end Cursor

end TexTidy
