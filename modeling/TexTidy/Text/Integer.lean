import TexTidy.Bytes

/-!
# TexTidy.Text.Integer

Integers as they are written in programs: a sign, a base given by `0x`, `0o`, `0b` or a leading zero,
and underscores between digits. Values have to fit into 64 bits with a sign.
-/

namespace TexTidy.Text

/-- Why a text is no integer. -/
inductive IntegerError where
  | invalid
  | outOfRange
  deriving DecidableEq, Repr

/-- The wording of the error. -/
def IntegerError.message : IntegerError → Bytes
  | .invalid => bytes "invalid syntax"
  | .outOfRange => bytes "value out of range"

/-- An ASCII letter as a small letter. -/
def lowerByte (c : UInt8) : UInt8 :=
  if 0x41 ≤ c && c ≤ 0x5A then c + 0x20 else c

/-- The value of a digit, letters included. -/
def digitValue? (c : UInt8) : Option Nat :=
  if isDigit c then some (c.toNat - 0x30)
  else if isLetter c then some ((lowerByte c).toNat - 0x57)
  else none

/-- The base that a text announces, and its digits. -/
def baseOf : Bytes → Nat × Bytes
  | 0x30 :: c :: d :: s =>
    if lowerByte c == 0x62 then (2, d :: s)
    else if lowerByte c == 0x6F then (8, d :: s)
    else if lowerByte c == 0x78 then (16, d :: s)
    else (8, c :: d :: s)
  | 0x30 :: s => (8, s)
  | s => (10, s)

/-- The value of digits and underscores, read from the left. What comes first decides the error. -/
def magnitude (base : Nat) : Nat → Bytes → Except IntegerError Nat
  | n, [] => .ok n
  | n, c :: s =>
    if c == Byte.underscore then magnitude base n s
    else match digitValue? c with
      | none => .error .invalid
      | some d =>
        if base ≤ d then .error .invalid
        else if Nat.pow 2 64 ≤ base * n + d then .error .outOfRange
        else magnitude base (base * n + d) s

/-- Whether every underscore stands between digits, or between the base and a digit; `afterDigit` if
    one may stand here. -/
def underscoresOk : Bool → Bytes → Bool
  | _, [] => true
  | afterDigit, c :: s =>
    if c == Byte.underscore then
      afterDigit && s.head?.any (fun d => d != Byte.underscore) && underscoresOk false s
    else underscoresOk true s

/-- Whether the underscores of a text without its sign are well placed. -/
def underscoresPlaced : Bytes → Bool
  | 0x30 :: c :: s =>
    if lowerByte c == 0x62 || lowerByte c == 0x6F || lowerByte c == 0x78 then underscoresOk true s
    else underscoresOk true (c :: s)
  | s => underscoresOk false s

/-- The value of a text without its sign. -/
def parseUnsigned (s : Bytes) : Except IntegerError Nat := do
  if s.isEmpty then throw .invalid
  let (base, digits) := baseOf s
  let n ← magnitude base 0 digits
  if underscoresPlaced s then return n else throw .invalid

/-- The value of a text. -/
def parseInteger (s : Bytes) : Except IntegerError Int := do
  let (negative, digits) := match s with
    | Byte.minus :: digits => (true, digits)
    | Byte.plus :: digits => (false, digits)
    | digits => (false, digits)
  let n ← parseUnsigned digits
  if negative then
    if n ≤ Nat.pow 2 63 then return -n else throw .outOfRange
  else
    if n < Nat.pow 2 63 then return n else throw .outOfRange

end TexTidy.Text
