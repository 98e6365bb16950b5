import TexTidy.Proofs.Hazard
import TexTidy.Proofs.Respell
import TexTidy.Proofs.Tight

/-!
# TexTidy.Proofs.Lexeme

What the lexical units of a parsed tree are made of, as far as a printer that strips the ends of lines has
to know: text holds no blank and no backslash, a command that ends in one is named by it, and what delimits
verbatim text is no blank.
-/

namespace TexTidy

open Bytes (ink)

/-! ## characters -/

namespace Utf8

theorem isBlank_of_isTail {b : UInt8} (h : isTail b = true) : isBlank b = false := by
  refine Bool.eq_false_iff.2 fun hblank => ?_
  simp only [isBlank, Bool.or_eq_true, beq_iff_eq] at hblank
  rcases hblank with ((rfl | rfl) | rfl) | rfl <;> cases h

theorem ne_backslash_of_isTail {b : UInt8} (h : isTail b = true) : b ≠ Byte.backslash := by
  rintro rfl
  cases h

theorem isActive_of_isTail {b : UInt8} (h : isTail b = true) : isActive b = false := by
  refine Bool.eq_false_iff.2 fun hactive => ?_
  simp only [isActive, Bool.or_eq_true, beq_iff_eq] at hactive
  rcases hactive with ((((((((((rfl | rfl) | rfl) | rfl) | rfl) | rfl) | rfl) | rfl) | rfl) | rfl) | rfl) | rfl <;>
    cases h

/-- A character is a single byte, or continuation bytes behind a byte beyond ASCII. -/
theorem take_first? {a : UInt8} {s : Bytes} {p : Char × Nat} (h : first? (a :: s) = some p) :
    ∃ tail, (a :: s).take p.2 = a :: tail ∧ ∀ b ∈ tail, isTail b = true := by
  unfold first? at h
  dsimp only at h
  split at h
  · cases h
    exact ⟨[], rfl, by simp⟩
  split at h
  · split at h
    · split at h
      · next b s hb =>
        cases h
        exact ⟨[b], rfl, by simpa using hb⟩
      · cases h
    · cases h
  split at h
  · split at h
    · split at h
      · next b c s hbc =>
        cases h
        obtain ⟨hb, hc⟩ := Bool.and_eq_true_iff.1 hbc
        exact ⟨[b, c], rfl, by simp [isTail_of_isSecond hb, hc]⟩
      · cases h
    · cases h
  split at h
  · split at h
    · split at h
      · next b c d s hbcd =>
        cases h
        obtain ⟨hbc, hd⟩ := Bool.and_eq_true_iff.1 hbcd
        obtain ⟨hb, hc⟩ := Bool.and_eq_true_iff.1 hbc
        exact ⟨[b, c, d], rfl, by simp [isTail_of_isSecond hb, hc, hd]⟩
      · cases h
    · cases h
  · cases h

theorem take_first (a : UInt8) (s : Bytes) :
    ∃ tail, (a :: s).take (first (a :: s)).2 = a :: tail ∧ ∀ b ∈ tail, isTail b = true := by
  unfold first
  split
  · next p h => exact take_first? h
  · exact ⟨[], rfl, by simp⟩

end Utf8

open Text (Tight Even tight_append even_append tight_control even_control)

/-! ## text -/

/-- Text is not empty and holds neither blanks nor backslashes. -/
structure Plain (s : Bytes) : Prop where
  ne_nil : s ≠ []
  solid : ∀ b ∈ s, isBlank b = false
  code : ∀ b ∈ s, b ≠ Byte.backslash

theorem isPad_eq_false {b : UInt8} (h : isBlank b = false) : isPad b = false := by
  refine Bool.eq_false_iff.2 fun hpad => ?_
  rw [Bytes.isBlank_of_isPad hpad] at h
  cases h

namespace Plain

variable {s t : Bytes}

theorem singleton {b : UInt8} (hb : isBlank b = false) (hcode : b ≠ Byte.backslash) : Plain [b] :=
  ⟨by simp, by simpa using hb, by simpa using hcode⟩

theorem last (h : Plain s) : ∃ b, s.getLast? = some b ∧ isPad b = false ∧ b ≠ Byte.backslash := by
  obtain ⟨b, hb⟩ := Option.isSome_iff_exists.1 (List.getLast?_isSome.2 h.ne_nil)
  have hmem := List.mem_of_getLast? hb
  exact ⟨b, hb, isPad_eq_false (h.solid b hmem), h.code b hmem⟩

theorem newline (h : Plain s) : Byte.newline ∉ s := fun hmem => by
  cases h.solid _ hmem

/-- A character that is no blank and no backslash. -/
theorem take_first {b : UInt8} (hb : isBlank b = false) (hcode : b ≠ Byte.backslash) (s : Bytes) :
    Plain ((b :: s).take (Utf8.first (b :: s)).2) := by
  obtain ⟨tail, htail, hall⟩ := Utf8.take_first b s
  rw [htail]
  refine ⟨List.cons_ne_nil b tail, ?_, ?_⟩
  · rintro a (_ | ⟨_, ha⟩)
    · exact hb
    · exact Utf8.isBlank_of_isTail (hall a ha)
  · rintro a (_ | ⟨_, ha⟩)
    · exact hcode
    · exact Utf8.ne_backslash_of_isTail (hall a ha)

end Plain

theorem plain_of_scan? {i : Bool} {c : UInt8} {s content : Bytes}
    (h : Token.scan? i (c :: s) = some (.text content)) : Plain content := by
  obtain ⟨hactive, hblank⟩ := Token.isPlain_of_scan? h
  rw [Token.scan?_text hactive hblank] at h
  cases h
  have hall : ∀ b ∈ (c :: s).takeWhile (fun b => !isActive b && !isBlank b),
      isActive b = false ∧ isBlank b = false := fun b hb => by
    simpa using List.all_eq_true.1 List.all_takeWhile b hb
  refine ⟨?_, fun b hb => (hall b hb).2, fun b hb => ?_⟩
  · rw [List.takeWhile_cons_of_pos (by simp [hactive, hblank])]
    exact List.cons_ne_nil _ _
  · rintro rfl
    cases (hall _ hb).1

namespace Parse

theorem plain_of_leaf {mode : Mode} {c d : Cursor} {t : Token} {content : Bytes}
    (token : c.token = .ok (t, d)) (plain : plainLeaf? mode t.kind = some (.text content)) :
    Plain content := by
  obtain ⟨b, s, rfl, hb⟩ := plainLeaf?_text token plain
  cases hk : t.kind with
  | text content =>
    rw [hk] at plain
    cases plain
    have hscan := Cursor.scan?_of_token token
    rw [(Cursor.token_reads token).1.text, hk] at hscan
    exact plain_of_scan? hscan
  | openBracket | closeBracket =>
    rw [hk] at plain
    cases plain
    exact .singleton (by decide) (by decide)
  | symbol char =>
    rw [hk] at plain
    simp only [plainLeaf?] at plain
    split at plain
    · cases plain
    · cases plain
      exact .singleton hb.blank hb.backslash
  | _ =>
    rw [hk] at plain
    cases plain

/-- A character that can be an argument. -/
theorem plain_of_character {c d : Cursor} {b : UInt8} {char : Bytes} (sign : c.peek? = some b)
    (inert : (b ≠ 0 && !isActive b && !isBlank b) = true) (content : c.character = (char, d)) :
    Plain char := by
  obtain ⟨s, hs⟩ := List.head?_eq_some_iff.1 sign
  obtain ⟨hactive, hblank⟩ := Bool.and_eq_true_iff.1 inert
  rw [Cursor.character, hs] at content
  cases content
  refine .take_first (by simpa using hblank) ?_ s
  rintro rfl
  cases hactive

end Parse

/-! ## commands -/

/-- A command is named by a single byte, or by bytes that are neither blanks nor backslashes. -/
def Named (name : Bytes) : Prop :=
  (∃ b, name = [b]) ∨ Plain name

theorem isBlank_of_isLetter {b : UInt8} (h : isLetter b = true) : isBlank b = false := by
  refine Bool.eq_false_iff.2 fun hblank => ?_
  simp only [isBlank, Bool.or_eq_true, beq_iff_eq] at hblank
  rcases hblank with ((rfl | rfl) | rfl) | rfl <;> cases h

theorem named_commandName {s : Bytes} (hs : s ≠ []) : Named (Token.commandName s) := by
  obtain ⟨a, s, rfl⟩ := List.exists_cons_of_ne_nil hs
  rw [Token.commandName]
  split
  · next ha =>
    have hall : ∀ b ∈ (a :: s).takeWhile isLetter, isLetter b = true :=
      fun b hb => List.all_eq_true.1 List.all_takeWhile b hb
    refine .inr ⟨?_, fun b hb => isBlank_of_isLetter (hall b hb), fun b hb => ?_⟩
    · rw [List.takeWhile_cons_of_pos ha]
      exact List.cons_ne_nil _ _
    · rintro rfl
      cases hall _ hb
  · by_cases hascii : a < 0x80
    · refine .inl ⟨a, ?_⟩
      have hfirst : Utf8.first? (a :: s) = some (Char.ofNat a.toNat, 1) := by
        simp [Utf8.first?, hascii]
      rw [Utf8.first, hfirst]
      rfl
    · refine .inr (.take_first (Bool.eq_false_iff.2 fun hblank => ?_) ?_ s)
      · simp only [isBlank, Bool.or_eq_true, beq_iff_eq] at hblank
        rcases hblank with ((rfl | rfl) | rfl) | rfl <;> exact hascii (by decide)
      · rintro rfl
        exact hascii (by decide)

theorem named_of_token {c d : Cursor} {t : Token} {name : Bytes} (token : c.token = .ok (t, d))
    (kind : t.kind = .command name) : Named name := by
  have hrest := (Cursor.token_reads token).1.text
  rw [kind, Token.Kind.raw, List.cons_append] at hrest
  obtain ⟨hne, hname⟩ := Parse.kind_of_backslash hrest token
  rw [Token.Kind.command.inj (kind.symm.trans hname)]
  exact named_commandName hne

namespace Named

variable {name : Bytes}

/-- A name holds no newline unless it is one. -/
theorem newline (h : Named name) (hname : name ≠ [Byte.newline]) : Byte.newline ∉ name := by
  rcases h with ⟨b, rfl⟩ | h
  · intro hmem
    exact hname (by rw [List.mem_singleton.1 hmem])
  · exact h.newline

/-- **A command can be the end of a line.** If its name is a blank, what stands before it has to leave its backslash
    alone. A double backslash changes nothing. -/
theorem tight_even (h : Named name) {s : Bytes} (hs : Node.isPadName name = true → Even s) :
    Tight (s ++ Byte.backslash :: name) ∧
      ((name = [Byte.backslash] → Even s) → Even (s ++ Byte.backslash :: name)) := by
  rcases h with ⟨b, rfl⟩ | h
  · refine ⟨?_, fun hdouble => ?_⟩
    · cases hpad : Node.isPadName [b] with
      | true => exact tight_control (hs hpad)
      | false => exact tight_append rfl (by simpa [Node.isPadName, isPad] using hpad)
    · by_cases hb : b = Byte.backslash
      · exact even_control (hdouble (by rw [hb]))
      · exact even_append rfl hb
  · obtain ⟨b, hb, hpad, hcode⟩ := h.last
    have hlast : (Byte.backslash :: name).getLast? = some b := by
      rw [List.getLast?_cons, hb]
      rfl
    exact ⟨tight_append hlast hpad, fun _ => even_append hlast hcode⟩

end Named

/-! ## verbatim text -/

/-- What delimits verbatim text is a character that is no blank, and there is no newline before it is met again. -/
theorem Cursor.exists_of_delimited {c d : Cursor} {marker content : Bytes}
    (h : c.delimited = .ok ((marker, content), d)) :
    (∃ a tail, marker = a :: tail ∧ isBlank a = false ∧ ∀ b ∈ tail, Utf8.isTail b = true) ∧
      Byte.newline ∉ content := by
  unfold Cursor.delimited at h
  cases hrest : c.rest with
  | nil =>
    rw [hrest] at h
    cases h
  | cons a s =>
    rw [hrest, if_neg (by simp)] at h
    have hblank : isBlank a = false := by
      refine Bool.eq_false_iff.2 fun hblank => ?_
      simp only [isBlank, Bool.or_eq_true, beq_iff_eq] at hblank
      rcases hblank with ((rfl | rfl) | rfl) | rfl <;> cases h
    obtain ⟨tail, htail, hall⟩ := Utf8.take_first a s
    dsimp only at h
    split at h
    · cases h
    split at h
    · next found after hcut =>
      split at h
      · cases h
      · next hline =>
        have hparts := (Prod.mk.inj (Except.ok.inj h)).1
        have hmarker : marker = a :: tail := (Prod.mk.inj hparts).1.symm.trans htail
        rw [← (Prod.mk.inj hparts).2]
        exact ⟨⟨a, tail, hmarker, hblank, hall⟩, by simpa [Bytes.hasNewline] using hline⟩
    · cases h

/-- What delimits verbatim text can be the end of a line. -/
theorem Cursor.last_delimited {c d : Cursor} {marker content : Bytes}
    (h : c.delimited = .ok ((marker, content), d)) :
    ∃ b, marker.getLast? = some b ∧ isBlank b = false := by
  obtain ⟨⟨a, tail, rfl, hblank, hall⟩, -⟩ := Cursor.exists_of_delimited h
  obtain ⟨b, hb⟩ := Option.isSome_iff_exists.1 (List.getLast?_isSome.2 (List.cons_ne_nil a tail))
  refine ⟨b, hb, ?_⟩
  rcases List.mem_cons.1 (List.mem_of_getLast? hb) with rfl | hmem
  · exact hblank
  · exact Utf8.isBlank_of_isTail (hall b hmem)

/-! ## comments -/

/-- The blanks in front of a comment end no line. -/
theorem Comment.Shaped.not_breaksLine {c : Comment} {rest : Bytes} (h : c.Shaped rest) (z : Bytes) :
    ¬ BreaksLine (c.raw ++ z) := by
  have hfirst := h.first
  rw [Comment.raw]
  generalize c.leading = leading at hfirst
  rintro ⟨y, hy⟩
  rcases leading with _ | ⟨a, _ | ⟨b, leading⟩⟩
  · rcases hy with hy | hy <;> cases hy
  · rcases hy with hy | hy
    · cases hy
      simp at hfirst
    · cases hy
  · rcases hy with hy | hy <;>
    · cases hy
      simp at hfirst

/-! ## white space -/

/-- A paragraph break holds two newlines. -/
theorem Token.count_of_parbreak {i : Bool} {s raw : Bytes} (h : scan? i s = some (.parbreak raw)) :
    2 ≤ raw.count Byte.newline := by
  cases s with
  | nil => cases h
  | cons c s =>
    rcases scan?_cases h with h' | ⟨-, h'⟩ | ⟨-, h'⟩ | ⟨-, -, h'⟩ | ⟨-, h'⟩ | ⟨-, -, h'⟩
    · have := single?_cases h'
      simp at this
    · cases h'
    · rcases scanDollar_cases s with hd | hd <;> cases h'.trans hd
    · cases h'
    · rcases scanBlank_cases i (c :: s) with ⟨_, hb⟩ | ⟨hcount, hb⟩ | ⟨-, hb⟩
      · cases h'.trans hb
      · cases h'.trans hb
        exact hcount
      · cases h'.trans hb
    · cases h'

end TexTidy
