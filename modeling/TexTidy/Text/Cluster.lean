import TexTidy.Text.Cluster.Class

/-!
# TexTidy.Text.Cluster

Extended grapheme clusters (UAX #29): a base character with its marks, a Hangul syllable, a flag, or
pictographs tied by joiners. A cluster is what a reader sees as one character, so widths are counted by
cluster.
-/

namespace TexTidy.Text.Cluster

/-- What the rules have to know about the characters before a possible boundary. -/
structure Context where
  /-- The class of the character before. -/
  last : Class
  /-- The characters before are a pictograph and its marks, and may end in one joiner. -/
  pictograph : Bool
  /-- An odd number of regional indicators stands before. -/
  oddRegional : Bool

/-- The context after a first character. -/
def Context.start (k : Class) : Context :=
  ⟨k, k = .pictograph, k = .regional⟩

/-- The context after one more character. -/
def Context.next (x : Context) (k : Class) : Context where
  last := k
  pictograph := k = .pictograph ∨
    (x.pictograph ∧ x.last ≠ .joiner ∧ (k = .extend ∨ k = .joiner))
  oddRegional := k = .regional ∧ !(x.last = .regional ∧ x.oddRegional)

/-- Whether the cluster goes on with a character of class `k`. -/
def Context.joins (x : Context) (k : Class) : Bool :=
  match x.last, k with
  | .cr, .lf => true
  | .cr, _ | .lf, _ | .control, _ => false
  | _, .cr | _, .lf | _, .control => false
  | .leading, .leading | .leading, .vowel | .leading, .syllableLV | .leading, .syllableLVT => true
  | .syllableLV, .vowel | .syllableLV, .trailing | .vowel, .vowel | .vowel, .trailing => true
  | .syllableLVT, .trailing | .trailing, .trailing => true
  | _, .extend | _, .joiner | _, .spacingMark => true
  | .prepend, _ => true
  | .joiner, .pictograph => x.pictograph
  | .regional, .regional => x.oddRegional
  | _, _ => false

/-- Splits the characters after `x`; the first list continues the cluster that `x` describes. -/
def splitFrom (x : Context) : List Char → List Char × List (List Char)
  | [] => ([], [])
  | c :: cs =>
    let k := classOf c
    let (same, others) := splitFrom (x.next k) cs
    if x.joins k then (c :: same, others) else ([], (c :: same) :: others)

/-- The clusters of a text, in order. -/
def split : List Char → List (List Char)
  | [] => []
  | c :: cs =>
    let (same, others) := splitFrom (.start (classOf c)) cs
    (c :: same) :: others

end TexTidy.Text.Cluster
