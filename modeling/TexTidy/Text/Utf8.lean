import TexTidy.Bytes

/-!
# TexTidy.Text.Utf8

The characters of a text. Only well-formed UTF-8 counts: the shortest form of a code point that is not
a surrogate. A byte that starts no well-formed character stands alone and reads as U+FFFD, so every
text can be read and no byte is skipped.
-/

namespace TexTidy.Utf8

/-- What a byte that is part of no character reads as. -/
def replacement : Char := Char.ofNat 0xFFFD

/-- Whether `b` is a continuation byte. -/
def isTail (b : UInt8) : Bool :=
  0x80 ≤ b && b ≤ 0xBF

/-- The bits of a continuation byte. -/
def tailBits (b : UInt8) : Nat :=
  b.toNat % 0x40

/-- The least and greatest second byte after a leading byte of a longer character. -/
def secondRange (a : UInt8) : UInt8 × UInt8 :=
  if a == 0xE0 then (0xA0, 0xBF)
  else if a == 0xED then (0x80, 0x9F)
  else if a == 0xF0 then (0x90, 0xBF)
  else if a == 0xF4 then (0x80, 0x8F)
  else (0x80, 0xBF)

/-- Whether `b` may follow the leading byte `a`. -/
def isSecond (a b : UInt8) : Bool :=
  (secondRange a).1 ≤ b && b ≤ (secondRange a).2

/-- The first character of a text and the number of its bytes, if the text starts with one. -/
def first? : Bytes → Option (Char × Nat)
  | [] => none
  | a :: s =>
    if a < 0x80 then some (Char.ofNat a.toNat, 1)
    else if 0xC2 ≤ a && a ≤ 0xDF then
      match s with
      | b :: _ =>
        if isTail b then some (Char.ofNat (a.toNat % 0x20 * 0x40 + tailBits b), 2) else none
      | [] => none
    else if 0xE0 ≤ a && a ≤ 0xEF then
      match s with
      | b :: c :: _ =>
        if isSecond a b && isTail c then
          some (Char.ofNat ((a.toNat % 0x10 * 0x40 + tailBits b) * 0x40 + tailBits c), 3)
        else none
      | _ => none
    else if 0xF0 ≤ a && a ≤ 0xF4 then
      match s with
      | b :: c :: d :: _ =>
        if isSecond a b && isTail c && isTail d then
          some (Char.ofNat (((a.toNat % 0x08 * 0x40 + tailBits b) * 0x40 + tailBits c) * 0x40
            + tailBits d), 4)
        else none
      | _ => none
    else none

/-- The first character of a text and the number of its bytes: one byte where no character starts, and
    none at the end. -/
def first (s : Bytes) : Char × Nat :=
  match first? s with
  | some r => r
  | none => (replacement, if s.isEmpty then 0 else 1)

/-- A character takes at least one byte, and no more than there are. -/
theorem first?_bounds {s : Bytes} {c : Char} {n : Nat} (h : first? s = some (c, n)) :
    0 < n ∧ n ≤ s.length := by
  unfold first? at h
  split at h
  · simp at h
  · split at h
    · simp at h; simp; omega
    · split at h
      · split at h
        · split at h <;> simp at h
          simp; omega
        · simp at h
      · split at h
        · split at h
          · split at h <;> simp at h
            simp; omega
          · simp at h
        · split at h
          · split at h
            · split at h <;> simp at h
              simp; omega
            · simp at h
          · simp at h

/-- The first character of a text takes no more bytes than there are. -/
theorem first_le_length (s : Bytes) : (first s).2 ≤ s.length := by
  unfold first
  split
  · next h => exact (first?_bounds h).2
  · cases s <;> simp

/-- The first character of a text that is not empty takes at least one byte. -/
theorem first_pos {s : Bytes} (h : s ≠ []) : 0 < (first s).2 := by
  unfold first
  split
  · next hf => exact (first?_bounds hf).1
  · cases s
    · exact absurd rfl h
    · simp

/-- A text read to its end. Each piece is a character with its bytes, or a single byte without one. -/
def pieces : Bytes → List (Option Char × Bytes)
  | [] => []
  | a :: s =>
    match first? (a :: s) with
    | some (c, n) => (some c, a :: s.take (n - 1)) :: pieces (s.drop (n - 1))
    | none => (none, [a]) :: pieces s
termination_by s => s.length
decreasing_by
  all_goals simp only [List.length_drop, List.length_cons]; omega

/-- The characters of a text. -/
def decode (s : Bytes) : List Char :=
  (pieces s).map fun (c, _) => c.getD replacement

/-- Whether every byte of a text is part of a character. -/
def isValid (s : Bytes) : Bool :=
  (pieces s).all fun (c, _) => c.isSome

/-- A text without the byte order mark in front of it. -/
def dropMark : Bytes → Bytes
  | 0xEF :: 0xBB :: 0xBF :: s => s
  | s => s

/-- The bytes of a character. -/
def encode (c : Char) : Bytes :=
  bytes (String.singleton c)

end TexTidy.Utf8
