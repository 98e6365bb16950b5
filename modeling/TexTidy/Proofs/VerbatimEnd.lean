import Mathlib.Order.Bounds.Basic
import TexTidy.Proofs.Derivation
import TexTidy.Registry.Builtin

/-!
# TexTidy.Proofs.VerbatimEnd

Where verbatim text ends. Its body goes up to the first marker `\end{name}` of its own name that no backslash of the
body stands right in front of (`EndsAt`). Markers of other names, of names that only begin alike, and markers behind a
backslash are part of the body, however many there are.

The search walks over the text and remembers whether the last byte was a backslash. `Ends` says for a text and this
one bit what `EndsAt` says for a place of a source, and `ends_succ` is the step of the walk.
-/

namespace TexTidy

/-- A marker at offset `k` of a source ends a text that begins at offset `start`: the marker stands there, and it is the
    first thing of the text or no backslash stands right before it. -/
def Bytes.EndsAt (src marker : Bytes) (start k : Nat) : Prop :=
  start ≤ k ∧ marker <+: src.drop k ∧ (k = start ∨ src[k - 1]? ≠ some Byte.backslash)

namespace Cursor

/-! ## the walk -/

/-- A marker at offset `k` of a text ends it, if a backslash stands before the text or not. -/
def Ends (marker : Bytes) (escaped : Bool) (s : Bytes) : Nat → Prop
  | 0 => escaped = false ∧ marker <+: s
  | k + 1 => s[k]? ≠ some Byte.backslash ∧ marker <+: s.drop (k + 1)

variable {marker s body : Bytes} {escaped : Bool}

theorem ends_succ {b : UInt8} {k : Nat} :
    Ends marker escaped (b :: s) (k + 1) ↔ Ends marker (b == Byte.backslash) s k := by
  cases k with
  | zero => simp [Ends]
  | succ k => simp [Ends]

theorem not_ends_nil (hm : marker ≠ []) (k : Nat) : ¬Ends marker escaped [] k := by
  cases k with
  | zero => exact fun h => hm (List.prefix_nil.1 h.2)
  | succ k => exact fun h => hm (List.prefix_nil.1 (by simpa using h.2))

theorem not_ends_zero {b : UInt8} (h : ¬(!escaped && marker.isPrefixOf (b :: s)) = true) :
    ¬Ends marker escaped (b :: s) 0 := by
  rintro ⟨rfl, hprefix⟩
  exact h (by simpa using hprefix)

/-- What is found ends the text, and nothing before it does. -/
theorem ends_of_bodyBefore? (h : bodyBefore? marker escaped s = some body) :
    body = s.take body.length ∧ Ends marker escaped s body.length ∧
      ∀ k < body.length, ¬Ends marker escaped s k := by
  induction s generalizing escaped body with
  | nil => cases h
  | cons b s ih =>
    rw [bodyBefore?] at h
    split at h
    · next hfound =>
      cases h
      simp only [Bool.and_eq_true, Bool.not_eq_true', List.isPrefixOf_iff_prefix] at hfound
      exact ⟨rfl, hfound, fun k hk => absurd hk (Nat.not_lt_zero k)⟩
    · next hmore =>
      obtain ⟨tail, htail, rfl⟩ := Option.map_eq_some_iff.1 h
      obtain ⟨hbody, hends, hleast⟩ := ih htail
      refine ⟨congrArg (b :: ·) hbody, ends_succ.2 hends, fun k hk => ?_⟩
      cases k with
      | zero => exact not_ends_zero hmore
      | succ k => exact fun hk' => hleast k (Nat.lt_of_succ_lt_succ hk) (ends_succ.1 hk')

/-- If nothing is found, nothing ends the text. -/
theorem not_ends_of_bodyBefore? (hm : marker ≠ []) (h : bodyBefore? marker escaped s = none) (k : Nat) :
    ¬Ends marker escaped s k := by
  induction s generalizing escaped k with
  | nil => exact not_ends_nil hm k
  | cons b s ih =>
    rw [bodyBefore?] at h
    split at h
    · cases h
    · next hmore =>
      cases k with
      | zero => exact not_ends_zero hmore
      | succ k => exact fun hk => ih (Option.map_eq_none_iff.1 h) k (ends_succ.1 hk)

/-! ## places of a source -/

theorem endMarker_ne_nil (name : Bytes) : endMarker name ≠ [] := by
  simp [endMarker]

/-- The end of a text that begins at a place of a source. -/
theorem ends_drop_iff {src : Bytes} {pos k : Nat} :
    Ends marker false (src.drop pos) k ↔ src.EndsAt marker pos (pos + k) := by
  cases k with
  | zero => simp [Ends, Bytes.EndsAt]
  | succ k =>
    have hle : pos ≤ pos + k + 1 := by omega
    have hne : pos + k + 1 ≠ pos := by omega
    simp [Ends, Bytes.EndsAt, and_comm, ← Nat.add_assoc, hle, hne]

/-- An end of the text at a place of a source is found by the walk. -/
theorem exists_ends_of_endsAt {src : Bytes} {pos k : Nat} (h : src.EndsAt marker pos k) :
    ∃ j, k = pos + j ∧ Ends marker false (src.drop pos) j := by
  obtain ⟨j, rfl⟩ := Nat.exists_eq_add_of_le h.1
  exact ⟨j, rfl, ends_drop_iff.2 h⟩

section

variable {src name : Bytes} {pos : Nat} {next : Cursor}

/-- What is read is the text up to the least end. -/
theorem isLeast_of_verbatimBody (h : (ofOffset src pos).verbatimBody name = some (body, next)) :
    IsLeast {k | src.EndsAt (endMarker name) pos k} (pos + body.length) ∧
      body = src.slice ⟨pos, pos + body.length⟩ ∧
      next = ofOffset src (pos + body.length + (endMarker name).length) := by
  obtain ⟨found, hfound, hpair⟩ := Option.map_eq_some_iff.1 h
  cases hpair
  rw [show (ofOffset src pos).rest = src.drop pos from rfl] at hfound
  obtain ⟨hbody, hends, hleast⟩ := ends_of_bodyBefore? hfound
  have hend : src.EndsAt (endMarker name) pos (pos + body.length) := ends_drop_iff.1 hends
  refine ⟨⟨hend, fun k hk => ?_⟩, ?_, ?_⟩
  · obtain ⟨j, rfl, hj⟩ := exists_ends_of_endsAt hk
    exact Nat.add_le_add_left (Nat.le_of_not_lt fun hlt => hleast j hlt hj) pos
  · simpa [Bytes.slice] using hbody
  · -- The marker is not empty and stands in the source, so the place after it is one of the source.
    have hfits := hend.2.1.length_le
    have hmarker := List.length_pos_iff.2 (endMarker_ne_nil name)
    rw [List.length_drop] at hfits
    rw [Nat.add_assoc, advance_ofOffset src pos _ (by omega)]

theorem not_endsAt_of_verbatimBody (h : (ofOffset src pos).verbatimBody name = none) (k : Nat) :
    ¬src.EndsAt (endMarker name) pos k := by
  intro hk
  obtain ⟨j, -, hj⟩ := exists_ends_of_endsAt hk
  exact not_ends_of_bodyBefore? (endMarker_ne_nil name) (Option.map_eq_none_iff.1 h) j hj

end

end Cursor

namespace Parse

open Cursor (ofOffset endMarker)

/-! ## verbatim environments -/

/-- The name of a verbatim environment and its arguments are read from `c` on, and its body begins at `d`. -/
structure OpensVerbatim (r : Registry) (read : Reader) (mode : Mode) (c : Cursor) (name : Bytes) (args : List Node)
    (d : Cursor) : Prop where
  verbatim : (environmentEntry r name).spec.verbatim = true
  header : ∃ e, c.environmentName = .ok (name, e) ∧
    arguments r read mode (environmentEntry r name).args e = .ok (args, d)

/-- A verbatim environment is read up to the end of its body. -/
theorem environment_of_opensVerbatim {r : Registry} {read : Reader} {mode : Mode} {c d : Cursor} {name : Bytes}
    {args : List Node} (h : OpensVerbatim r read mode c name args d) (start : Nat) :
    environment r read mode start c = match d.verbatimBody name with
      | none => .error ⟨start, .verbatimUnclosed name, d.pos⟩
      | some (body, stop) => .ok (.branch ⟨start, stop.pos⟩ {} (.verbatim name body) args [], stop) := by
  obtain ⟨e, hname, hargs⟩ := h.header
  have hentry : (r.environment? name).getD ⟨{}, []⟩ = environmentEntry r name := rfl
  unfold environment
  rw [hname]
  simp only [bind, Except.bind, hentry, hargs, h.verbatim, if_true]
  cases d.verbatimBody name <;> rfl

/-- **Verbatim text ends at the first marker of its own that is not escaped.** From a place of a source a body is read
    exactly if such a marker follows. The body is the text up to the least offset of one, and reading goes on behind
    the marker. An environment whose body begins at the place holds that body. If there is no such marker reading does
    not move: the fault of the environment has stopped where the body begins. -/
theorem verbatim_ends_at_first_marker (src name : Bytes) (pos : Nat) :
    (((ofOffset src pos).verbatimBody name).isSome = true ↔ ∃ k, src.EndsAt (endMarker name) pos k) ∧
    (∀ body next, (ofOffset src pos).verbatimBody name = some (body, next) ↔
      ∃ k, IsLeast {k | src.EndsAt (endMarker name) pos k} k ∧ pos + body.length = k ∧ body = src.slice ⟨pos, k⟩ ∧
        next = ofOffset src (k + (endMarker name).length)) ∧
    ∀ r read mode c args start, OpensVerbatim r read mode c name args (ofOffset src pos) →
      (∀ k, IsLeast {k | src.EndsAt (endMarker name) pos k} k →
        environment r read mode start c =
          .ok (.branch ⟨start, k + (endMarker name).length⟩ {} (.verbatim name (src.slice ⟨pos, k⟩)) args [],
            ofOffset src (k + (endMarker name).length))) ∧
      ((¬∃ k, src.EndsAt (endMarker name) pos k) →
        environment r read mode start c = .error ⟨start, .verbatimUnclosed name, pos⟩) := by
  have hsome : ((ofOffset src pos).verbatimBody name).isSome = true ↔ ∃ k, src.EndsAt (endMarker name) pos k := by
    cases h : (ofOffset src pos).verbatimBody name with
    | none => simpa using Cursor.not_endsAt_of_verbatimBody h
    | some found => simpa using ⟨_, (Cursor.isLeast_of_verbatimBody h).1.1⟩
  have hread {k : Nat} (hleast : IsLeast {k | src.EndsAt (endMarker name) pos k} k) :
      (ofOffset src pos).verbatimBody name =
        some (src.slice ⟨pos, k⟩, ofOffset src (k + (endMarker name).length)) := by
    obtain ⟨⟨body, next⟩, h⟩ := Option.isSome_iff_exists.1 (hsome.2 ⟨k, hleast.1⟩)
    obtain ⟨hfound, hbody, rfl⟩ := Cursor.isLeast_of_verbatimBody h
    rw [hfound.unique hleast] at hbody h
    rw [h, hbody]
  refine ⟨hsome, fun body next => ⟨fun h => ?_, ?_⟩, fun r read mode c args start hopens => ⟨fun k hleast => ?_, ?_⟩⟩
  · exact ⟨_, (Cursor.isLeast_of_verbatimBody h).1, rfl, (Cursor.isLeast_of_verbatimBody h).2⟩
  · rintro ⟨k, hleast, -, rfl, rfl⟩
    exact hread hleast
  · rw [environment_of_opensVerbatim hopens, hread hleast]
    rfl
  · intro hnone
    rw [← hsome, Option.not_isSome_iff_eq_none] at hnone
    rw [environment_of_opensVerbatim hopens, hnone]
    rfl

/-- A marker behind a backslash, one of a shorter name and one of a longer name are part of the body. -/
theorem verbatim_ends_at_first_marker_escaped :
    ∃ src, src = bytes "\\begin\x7bverbatim\x7d\\\\end\x7bverbatim\x7d\\end\x7bverb\x7d" ++
        bytes "\\end\x7bverbatim*\x7d\\end\x7bverbatim\x7d." ∧
      IsLeast {k | src.EndsAt (endMarker (bytes "verbatim")) 16 k} 56 ∧
      environment .builtin (content .builtin 0) .text 0 (ofOffset src 6) =
        .ok (.branch ⟨0, 70⟩ {} (.verbatim (bytes "verbatim") (src.slice ⟨16, 56⟩)) [] [], ofOffset src 70) := by
  refine ⟨_, rfl, ?_⟩
  obtain ⟨-, hbody, hopened⟩ := verbatim_ends_at_first_marker
    (bytes "\\begin\x7bverbatim\x7d\\\\end\x7bverbatim\x7d\\end\x7bverb\x7d" ++
      bytes "\\end\x7bverbatim*\x7d\\end\x7bverbatim\x7d.") (bytes "verbatim") 16
  obtain ⟨k, hleast, hk, -⟩ := (hbody (bytes "\\\\end\x7bverbatim\x7d\\end\x7bverb\x7d\\end\x7bverbatim*\x7d") _).1 rfl
  cases hk
  exact ⟨hleast, (hopened .builtin (content .builtin 0) .text _ [] 0 ⟨by decide +kernel, _, rfl, rfl⟩).1 56 hleast⟩

end Parse

end TexTidy
