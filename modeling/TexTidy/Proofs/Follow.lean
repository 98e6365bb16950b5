import TexTidy.Proofs.Fence

/-!
# TexTidy.Proofs.Follow

What stands behind a text decides where reading it stops, and only its first bytes count. `Follows x y`
says that `y` stops whatever `x` stops: it begins like `x`, or with a byte that no text, name, star or
bracket goes on with.

Each reader has one lemma: what it reads in front of `x` it also reads in front of `y`.
-/

namespace TexTidy

/-! ## what may follow -/

/-- A byte that ends whatever stands before it: no word, name, star or bracket goes on with it. -/
def isStop (b : UInt8) : Bool :=
  (isBlank b || isActive b) && b != Byte.openBracket

/-- `y` can stand where `x` stands without being taken for more of what comes before. -/
structure Follows (x y : Bytes) : Prop where
  first : y.head? = x.head? ∨ y.head?.all isStop = true
  tails : y.takeWhile Utf8.isTail <+: x.takeWhile Utf8.isTail

/-- A stop goes on with no character and no name. -/
theorem inert_of_isStop {b : UInt8} (h : isStop b = true) :
    Utf8.isTail b = false ∧ isLetter b = false := by
  simp only [isStop, isBlank, isActive, Bool.and_eq_true, Bool.or_eq_true, beq_iff_eq] at h
  rcases h.1 with h | h
  · rcases h with ((rfl | rfl) | rfl) | rfl <;> decide
  · rcases h with (((((((((((rfl | rfl) | rfl) | rfl) | rfl) | rfl) | rfl) | rfl) | rfl) | rfl) | rfl) | rfl)
      <;> decide

/-- A stop follows anything. -/
theorem Follows.of_isStop {y : Bytes} (x : Bytes) (h : y.head?.all isStop = true) : Follows x y := by
  refine ⟨.inr h, ?_⟩
  cases y with
  | nil => exact List.nil_prefix
  | cons b y =>
    rw [List.takeWhile_cons_of_neg (by simp [(inert_of_isStop (show isStop b = true from h)).1])]
    exact List.nil_prefix

/-- No class of bytes without stops begins in front of `y` that does not begin in front of `x`. -/
theorem Follows.head {x y : Bytes} (h : Follows x y) {p : UInt8 → Bool}
    (hp : ∀ b, isStop b = true → p b = false) (hx : x.head?.any p = false) :
    y.head?.any p = false := by
  rcases h.first with h | h
  · rw [h, hx]
  · cases hy : y.head? with
    | none => rfl
    | some b =>
      rw [hy] at h
      exact hp b h

/-- A byte that is no continuation byte may be followed by anything. -/
theorem Follows.cons {b : UInt8} (hb : Utf8.isTail b = false) (x y : Bytes) :
    Follows (b :: x) (b :: y) := by
  refine ⟨.inl rfl, ?_⟩
  rw [List.takeWhile_cons_of_neg (by simp [hb])]
  exact List.nil_prefix

theorem Follows.append {x y : Bytes} (s : Bytes) (h : Follows x y) : Follows (s ++ x) (s ++ y) := by
  cases s with
  | nil => exact h
  | cons b s =>
    refine ⟨.inl rfl, ?_⟩
    rw [List.takeWhile_append, List.takeWhile_append]
    split
    · exact (List.prefix_append_right_inj _).2 h.tails
    · exact List.prefix_rfl

/-! ## characters -/

namespace Utf8

theorem isTail_of_isSecond {a b : UInt8} (h : isSecond a b = true) : isTail b = true := by
  simp only [isSecond, secondRange, Bool.and_eq_true] at h
  simp only [isTail, Bool.and_eq_true, decide_eq_true_eq]
  repeat' split at h
  all_goals
    simp only [UInt8.le_iff_toNat_le] at *
    simp at h ⊢
    omega

theorem isSecond_eq_false {a b : UInt8} (h : isTail b = false) : isSecond a b = false := by
  cases hs : isSecond a b with
  | false => rfl
  | true =>
    rw [isTail_of_isSecond hs] at h
    cases h

/-- Of what stands behind a leading byte only the continuation bytes count. -/
theorem first?_takeWhile (a : UInt8) (s : Bytes) :
    first? (a :: s) = first? (a :: s.takeWhile isTail) := by
  rcases s with _ | ⟨b, _ | ⟨c, _ | ⟨d, s⟩⟩⟩
  · rfl
  · by_cases hb : isTail b = true <;> simp [first?, List.takeWhile, hb]
  · by_cases hb : isTail b = true
    · by_cases hc : isTail c = true <;> simp [first?, List.takeWhile, hb, hc]
    · simp [first?, List.takeWhile, hb, isSecond_eq_false (Bool.eq_false_iff.2 hb)]
  · by_cases hb : isTail b = true
    · by_cases hc : isTail c = true
      · by_cases hd : isTail d = true <;> simp [first?, List.takeWhile, hb, hc, hd]
      · simp [first?, List.takeWhile, hb, hc]
    · simp [first?, List.takeWhile, hb, isSecond_eq_false (Bool.eq_false_iff.2 hb)]

theorem first_congr {a : UInt8} {s t : Bytes} (h : s.takeWhile isTail = t.takeWhile isTail) :
    first (a :: s) = first (a :: t) := by
  unfold first
  rw [first?_takeWhile a s, first?_takeWhile a t, h]
  rfl

/-- A character does not depend on what stands behind it. -/
theorem first?_append_iff {s : Bytes} {p : Char × Nat} (hp : p.2 ≤ s.length) (z : Bytes) :
    first? (s ++ z) = some p ↔ first? s = some p := by
  cases s with
  | nil =>
    refine ⟨fun h => ?_, fun h => by cases h⟩
    have := (first?_bounds h).1
    simp at hp
    omega
  | cons a s =>
    unfold first?
    rw [List.cons_append]
    dsimp only
    by_cases h1 : a < 0x80
    · rw [if_pos h1, if_pos h1]
    rw [if_neg h1, if_neg h1]
    by_cases h2 : (0xC2 ≤ a && a ≤ 0xDF) = true
    · rw [if_pos h2, if_pos h2]
      rcases s with _ | ⟨b, s⟩ <;> grind
    rw [if_neg h2, if_neg h2]
    by_cases h3 : (0xE0 ≤ a && a ≤ 0xEF) = true
    · rw [if_pos h3, if_pos h3]
      rcases s with _ | ⟨b, _ | ⟨d, s⟩⟩ <;> grind
    rw [if_neg h3, if_neg h3]
    by_cases h4 : (0xF0 ≤ a && a ≤ 0xF4) = true
    · rw [if_pos h4, if_pos h4]
      rcases s with _ | ⟨b, _ | ⟨d, _ | ⟨e, s⟩⟩⟩ <;> grind
    rw [if_neg h4, if_neg h4]

/-- The first character stays the same in front of anything that follows. -/
theorem first_append {s x y : Bytes} (hs : s ≠ []) (h : (first (s ++ x)).2 = s.length)
    (hxy : Follows x y) : (first (s ++ y)).2 = s.length := by
  cases hx : first? (s ++ x) with
  | some p =>
    obtain ⟨c, n⟩ := p
    rw [first, hx] at h
    cases h
    have hs' := (first?_append_iff (Nat.le_refl _) x).1 hx
    rw [first, (first?_append_iff (Nat.le_refl _) y).2 hs']
  | none =>
    -- No character begins there, and fewer continuation bytes do not make one.
    obtain ⟨a, s, rfl⟩ := List.exists_cons_of_ne_nil hs
    have hnil : s = [] := by
      rw [first, hx] at h
      simpa using h.symm
    subst hnil
    have hy : first? (a :: y) = none := by
      cases hy : first? (a :: y) with
      | none => rfl
      | some p =>
        obtain ⟨rest, hrest⟩ := hxy.tails
        rw [first?_takeWhile] at hy
        have hmore := (first?_append_iff (first?_bounds hy).2 rest).2 hy
        rw [List.cons_append, hrest, ← first?_takeWhile] at hmore
        exact absurd (hx.symm.trans hmore) (by simp)
    rw [first, List.cons_append, List.nil_append, hy]
    rfl

/-- A continuation byte begins no character. -/
theorem first?_of_isTail {a : UInt8} (h : isTail a = true) (s : Bytes) : first? (a :: s) = none := by
  simp only [isTail, Bool.and_eq_true, decide_eq_true_eq, UInt8.le_iff_toNat_le] at h
  simp only [first?, UInt8.lt_iff_toNat_lt, UInt8.le_iff_toNat_le, Bool.and_eq_true, decide_eq_true_eq]
  simp at h ⊢
  rw [if_neg (by omega), if_neg (by omega), if_neg (by omega), if_neg (by omega)]

/-- A character that stands there once more is read no further than to its next occurrence. -/
theorem first_of_repeated (a : UInt8) (s x y : Bytes) :
    first (a :: (s ++ a :: x)) = first (a :: (s ++ a :: y)) := by
  by_cases ha : isTail a = true
  · rw [first, first, first?_of_isTail ha, first?_of_isTail ha]
    rfl
  · refine first_congr ?_
    rw [List.takeWhile_append, List.takeWhile_append, List.takeWhile_cons_of_neg ha,
      List.takeWhile_cons_of_neg ha]

end Utf8

/-! ## markers -/

namespace Bytes

/-- Where a marker is first met does not depend on what stands behind it. -/
theorem not_isPrefixOf_append {m a : Bytes} {b : UInt8} (x y : Bytes)
    (h : m.isPrefixOf (b :: (a ++ m ++ x)) = false) : m.isPrefixOf (b :: (a ++ m ++ y)) = false := by
  rw [Bool.eq_false_iff, Ne, List.isPrefixOf_iff_prefix] at *
  intro hy
  apply h
  have hfront : m <+: b :: (a ++ m) := by
    refine List.prefix_of_prefix_length_le hy ⟨y, by simp⟩ ?_
    simp only [List.length_cons, List.length_append]
    omega
  exact hfront.trans ⟨x, by simp⟩

theorem cut_append {m a x : Bytes} (hm : m ≠ []) (y : Bytes) (h : cut m (a ++ m ++ x) = some (a, x)) :
    cut m (a ++ m ++ y) = some (a, y) := by
  induction a with
  | nil =>
    obtain ⟨b, m, rfl⟩ := List.exists_cons_of_ne_nil hm
    simp [cut]
  | cons b a ih =>
    rw [List.cons_append, List.cons_append, cut] at *
    split at h
    · cases h
    · next hb =>
      rw [not_isPrefixOf_append x y (Bool.eq_false_iff.2 hb)]
      obtain ⟨⟨before, after⟩, hcut, hpair⟩ := Option.map_eq_some_iff.1 h
      cases hpair
      rw [ih hcut]
      rfl

end Bytes

theorem Cursor.bodyBefore?_append {m body x : Bytes} {escaped : Bool} (hm : m ≠ []) (y : Bytes)
    (h : bodyBefore? m escaped (body ++ m ++ x) = some body) :
    bodyBefore? m escaped (body ++ m ++ y) = some body := by
  induction body generalizing escaped with
  | nil =>
    obtain ⟨b, m, rfl⟩ := List.exists_cons_of_ne_nil hm
    cases escaped with
    | false => simp [bodyBefore?]
    | true => simp [bodyBefore?] at h
  | cons b body ih =>
    rw [List.cons_append, List.cons_append, bodyBefore?] at *
    split at h
    · cases h
    · next hb =>
      have hb' : (!escaped && m.isPrefixOf (b :: (body ++ m ++ y))) = false := by
        cases escaped with
        | true => rfl
        | false => exact Bytes.not_isPrefixOf_append x y (Bool.eq_false_iff.2 hb)
      rw [hb']
      obtain ⟨rest, hrest, hcons⟩ := Option.map_eq_some_iff.1 h
      cases hcons
      rw [ih hrest]
      rfl

/-! ## tokens -/

/-- A run ends where its class does not go on. -/
theorem Bytes.takeWhile_eq_nil {p : UInt8 → Bool} {y : Bytes} (h : y.head?.any p = false) :
    y.takeWhile p = [] := by
  cases y with
  | nil => rfl
  | cons b y => exact List.takeWhile_cons_of_neg (by simpa using h)

/-- A run that ends in front of `x` ends in front of `y`, too. -/
theorem Bytes.takeWhile_append_follows {p : UInt8 → Bool} {s x y : Bytes}
    (hp : ∀ b, isStop b = true → p b = false) (hxy : Follows x y)
    (h : (s ++ x).takeWhile p = s) : (s ++ y).takeWhile p = s := by
  have hall : ∀ b ∈ s, p b = true := by
    rw [← h]
    exact fun b hb => List.all_eq_true.1 List.all_takeWhile b hb
  rw [List.takeWhile_append_of_pos hall] at *
  have hx : x.head?.any p = false := by
    have hnil : x.takeWhile p = [] := List.append_cancel_left (h.trans (List.append_nil s).symm)
    cases x with
    | nil => rfl
    | cons b x =>
      cases hb : p b with
      | false => simpa using hb
      | true => simp [List.takeWhile_cons_of_pos hb] at hnil
  rw [takeWhile_eq_nil (hxy.head hp hx), List.append_nil]

namespace Token

/-- A command has a name. -/
theorem commandName_ne_nil {s : Bytes} (h : s ≠ []) : commandName s ≠ [] := by
  obtain ⟨c, s, rfl⟩ := List.exists_cons_of_ne_nil h
  rw [commandName]
  split
  · next hc =>
    rw [List.takeWhile_cons_of_pos hc]
    exact List.cons_ne_nil _ _
  · intro hnil
    have hpos := Utf8.first_pos h
    rw [List.take_eq_nil_iff] at hnil
    rcases hnil with hnil | hnil
    · omega
    · cases hnil

theorem commandName_append {name x y : Bytes} (hname : name ≠ []) (hxy : Follows x y)
    (h : commandName (name ++ x) = name) : commandName (name ++ y) = name := by
  obtain ⟨c, s, rfl⟩ := List.exists_cons_of_ne_nil hname
  rw [List.cons_append, commandName, ← List.cons_append] at *
  split at h
  · next hc =>
    rw [if_pos hc]
    exact Bytes.takeWhile_append_follows (fun _ hb => (inert_of_isStop hb).2) hxy h
  · next hc =>
    rw [if_neg hc]
    have hsize : (Utf8.first (c :: s ++ x)).2 = (c :: s).length := by
      have hlen := congrArg List.length h
      rw [List.length_take, Nat.min_eq_left (Utf8.first_le_length _)] at hlen
      exact hlen
    rw [Utf8.first_append hname hsize hxy, List.take_left]

/-- A name ends in front of a backslash. -/
theorem commandName_of_backslash {q : Bytes} (hq : q ≠ []) (x : Bytes) :
    commandName (q ++ Byte.backslash :: x) = commandName q := by
  obtain ⟨c, q, rfl⟩ := List.exists_cons_of_ne_nil hq
  have hstop (p : UInt8 → Bool) (hp : p Byte.backslash = false) (s : Bytes) :
      (s ++ Byte.backslash :: x).takeWhile p = s.takeWhile p := by
    rw [List.takeWhile_append, List.takeWhile_cons_of_neg (by simp [hp]), List.append_nil]
    split
    · next hlen => exact ((List.takeWhile_prefix p).eq_of_length hlen).symm
    · rfl
  rw [List.cons_append, commandName, commandName]
  by_cases hc : isLetter c = true
  · rw [if_pos hc, if_pos hc, ← List.cons_append, hstop _ (by decide)]
  · have hfirst := Utf8.first_congr (a := c) (hstop Utf8.isTail (by decide) q)
    rw [if_neg hc, if_neg hc, hfirst, ← List.cons_append, List.take_append_of_le_length]
    exact Utf8.first_le_length _

/-- Whether a token is decided by its own bytes and what stops it: not white space, no comment, and no
    single dollar sign. -/
def Kind.isLexeme : Kind → Bool
  | .endOfInput | .space _ | .parbreak _ | .comment _ | .dollar => false
  | _ => true

theorem isPlain_of_isStop {b : UInt8} (h : isStop b = true) : (!isActive b && !isBlank b) = false := by
  simp only [isStop, Bool.and_eq_true, Bool.or_eq_true] at h
  rcases h.1 with h | h <;> simp [h]

/-- A byte that begins a word. -/
theorem scan?_text {i : Bool} {c : UInt8} {s : Bytes} (hactive : isActive c = false)
    (hblank : isBlank c = false) :
    scan? i (c :: s) = some (.text ((c :: s).takeWhile fun b => !isActive b && !isBlank b)) := by
  simp only [isActive, Bool.or_eq_false_iff, beq_eq_false_iff_ne] at hactive
  obtain ⟨⟨⟨⟨⟨⟨⟨⟨⟨⟨⟨h1, h2⟩, h3⟩, h4⟩, h5⟩, h6⟩, h7⟩, h8⟩, h9⟩, h10⟩, h11⟩, h12⟩ := hactive
  have hsingle : single? c = none := by
    simp [single?, h2, h3, h4, h5, h8, h9, h10, h11, h12]
  rw [scan?, hsingle]
  simp [h1, h6, h7, hblank]

/-- A word begins with a byte that is neither active nor blank. -/
theorem isPlain_of_scan? {i : Bool} {c : UInt8} {s content : Bytes}
    (h : scan? i (c :: s) = some (.text content)) : isActive c = false ∧ isBlank c = false := by
  rcases scan?_cases h with hk | ⟨-, hk⟩ | ⟨-, hk⟩ | ⟨-, -, hk⟩ | ⟨-, hk⟩ | ⟨hactive, hblank, -⟩
  · have := single?_cases hk
    simp at this
  · cases hk
  · rcases scanDollar_cases s with h' | h' <;> cases hk.trans h'
  · cases hk
  · rcases scanBlank_cases i (c :: s) with ⟨_, h'⟩ | ⟨-, h'⟩ | ⟨-, h'⟩ <;> cases hk.trans h'
  · exact ⟨hactive, hblank⟩

/-- A word is not empty. -/
theorem exists_cons_of_text {i : Bool} {content x : Bytes}
    (h : scan? i (content ++ x) = some (.text content)) :
    ∃ c s, content = c :: s ∧ isActive c = false ∧ isBlank c = false := by
  cases content with
  | nil =>
    cases x with
    | nil => cases h
    | cons c s =>
      obtain ⟨hactive, hblank⟩ := isPlain_of_scan? h
      rw [List.nil_append, scan?_text hactive hblank,
        List.takeWhile_cons_of_pos (by simp [hactive, hblank])] at h
      cases h
  | cons c s => exact ⟨c, s, rfl, isPlain_of_scan? h⟩

/-- A symbol is a token whatever comes after it. -/
theorem single?_of_scan? {i : Bool} {c b : UInt8} {s : Bytes}
    (h : scan? i (c :: s) = some (.symbol b)) : single? c = some (.symbol b) := by
  rcases scan?_cases h with hk | ⟨-, hk⟩ | ⟨-, hk⟩ | ⟨-, -, hk⟩ | ⟨-, hk⟩ | ⟨-, -, hk⟩
  · exact hk
  · cases hk
  · rcases scanDollar_cases s with h' | h' <;> cases hk.trans h'
  · cases hk
  · rcases scanBlank_cases i (c :: s) with ⟨_, h'⟩ | ⟨-, h'⟩ | ⟨-, h'⟩ <;> cases hk.trans h'
  · cases hk

/-- The blanks in front of a comment change nothing in it. -/
theorem raw_scanComment (i j : Bool) (w after : Bytes) :
    (scanComment i w after).raw = w ++ (scanComment j [] after).raw := by
  simp [Comment.raw, scanComment]

/-- White space is read up to something else, and it is a paragraph break if it holds two newlines. -/
theorem white_of_scan? {i : Bool} {s raw : Bytes} {k : Kind} (h : scan? i s = some k)
    (hk : k = .space raw ∨ k = .parbreak raw) :
    s.takeWhile isBlank = raw ∧ s.head?.any isBlank = true ∧
      (2 ≤ raw.count Byte.newline → k = .parbreak raw) := by
  cases s with
  | nil =>
    cases h
    rcases hk with hk | hk <;> cases hk
  | cons c s =>
    rcases scan?_cases h with h' | ⟨-, h'⟩ | ⟨-, h'⟩ | ⟨-, -, h'⟩ | ⟨hblank, h'⟩ | ⟨-, -, h'⟩
    · have := single?_cases h'
      rcases hk with rfl | rfl <;> simp at this
    · rcases hk with rfl | rfl <;> cases h'
    · rcases scanDollar_cases s with hd | hd <;> rcases hk with rfl | rfl <;> cases h'.trans hd
    · rcases hk with rfl | rfl <;> cases h'
    · rcases scanBlank_cases i (c :: s) with ⟨_, hb⟩ | ⟨hcount, hb⟩ | ⟨hcount, hb⟩
      · rcases hk with rfl | rfl <;> cases h'.trans hb
      · rcases hk with rfl | rfl <;> cases h'.trans hb
        exact ⟨rfl, hblank, fun _ => rfl⟩
      · rcases hk with rfl | rfl <;> cases h'.trans hb
        exact ⟨rfl, hblank, fun h => absurd h (by omega)⟩
    · rcases hk with rfl | rfl <;> cases h'

/-- **A token that is read in front of `x` is read in front of `y`.** -/
theorem scan?_append {i j : Bool} {k : Kind} {x y : Bytes} (hk : k.isLexeme = true)
    (hxy : Follows x y) (h : scan? i (k.raw ++ x) = some k) : scan? j (k.raw ++ y) = some k := by
  cases k with
  | endOfInput | space | parbreak | comment | dollar => cases hk
  | openBrace | closeBrace | openBracket | closeBracket | dollars => rfl
  | symbol c =>
    change scan? j (c :: y) = some (.symbol c)
    rw [scan?, single?_of_scan? h]
  | command name =>
    change scan? i (Byte.backslash :: (name ++ x)) = some (.command name) at h
    change scan? j (Byte.backslash :: (name ++ y)) = some (.command name)
    rw [scan?, show single? Byte.backslash = none from rfl] at *
    have hx : name ++ x ≠ [] := by
      intro hnil
      rw [hnil] at h
      cases h
    have hread : commandName (name ++ x) = name := by
      simpa [hx, Byte.percent, Byte.dollar, Byte.backslash] using h
    have hname : name ≠ [] := hread ▸ commandName_ne_nil hx
    simp [hname, commandName_append hname hxy hread, Byte.percent, Byte.dollar, Byte.backslash]
  | text content =>
    change scan? i (content ++ x) = some (.text content) at h
    change scan? j (content ++ y) = some (.text content)
    obtain ⟨c, s, rfl, hactive, hblank⟩ := exists_cons_of_text h
    rw [List.cons_append, scan?_text hactive hblank, ← List.cons_append] at *
    have hrun := Kind.text.inj (Option.some.inj h)
    rw [Bytes.takeWhile_append_follows (fun _ => isPlain_of_isStop) hxy hrun]

end Token

/-! ## places -/

namespace Cursor

open Bytes (ink)

theorem token_of_scan? {c : Cursor} {k : Token.Kind} {y : Bytes} (hrest : c.rest = k.raw ++ y)
    (h : Token.scan? c.inked c.rest = some k) :
    ∃ t d, c.token = .ok (t, d) ∧ t.kind = k ∧ d.rest = y := by
  refine ⟨⟨k, ⟨c.pos, c.pos + k.raw.length⟩⟩, c.advance k.raw.length, ?_, rfl, by simp [hrest]⟩
  rw [token, h]

/-- White space is followed by something else. -/
theorem solid_of_white {c d : Cursor} {t : Token} {raw : Bytes} (token : c.token = .ok (t, d))
    (kind : t.kind = .space raw ∨ t.kind = .parbreak raw) : d.rest.head?.any isBlank = false := by
  have hraw : t.kind.raw = raw := by rcases kind with h | h <;> rw [h] <;> rfl
  have hrun := (Token.white_of_scan? (scan?_of_token token) kind).1
  have hrest := (token_reads token).1.text
  rw [hraw, ← hrun] at hrest
  exact Bytes.head?_of_takeWhile hrest

/-- A token is read again in front of anything that follows. -/
theorem token_append {c d e : Cursor} {t : Token} {y : Bytes} (h : c.token = .ok (t, d))
    (hk : t.kind.isLexeme = true) (hxy : Follows d.rest y) (hrest : e.rest = t.kind.raw ++ y) :
    ∃ t' d', e.token = .ok (t', d') ∧ t'.kind = t.kind ∧ d'.rest = y := by
  have hscan := scan?_of_token h
  rw [(token_reads h).1.text] at hscan
  refine token_of_scan? hrest ?_
  rw [hrest]
  exact Token.scan?_append hk hxy hscan

/-- A dollar sign that another one does not follow. -/
theorem token_dollar {e : Cursor} {y : Bytes} (hy : y.head? ≠ some Byte.dollar)
    (hrest : e.rest = Byte.dollar :: y) : ∃ t d, e.token = .ok (t, d) ∧ t.kind = .dollar ∧ d.rest = y := by
  refine token_of_scan? hrest ?_
  rw [hrest, Token.scan?, show Token.single? Byte.dollar = none from rfl]
  simp [Token.scanDollar, hy, Byte.percent, Byte.dollar]

theorem takeWhile_blank {w z : Bytes} (hw : ink w = []) (hz : z.head?.any isBlank = false) :
    (w ++ z).takeWhile isBlank = w ∧ (w ++ z).dropWhile isBlank = z := by
  have hall := Bytes.ink_eq_nil_iff.1 hw
  refine ⟨?_, ?_⟩
  · rw [List.takeWhile_append_of_pos hall, Bytes.takeWhile_eq_nil hz, List.append_nil]
  · rw [List.dropWhile_append_of_pos hall]
    cases z with
    | nil => rfl
    | cons b z => exact List.dropWhile_cons_of_neg (by simpa using hz)

/-- What is read at white space. -/
theorem scan?_blank {i : Bool} {w z : Bytes} (hne : w ≠ []) (hw : ink w = []) :
    Token.scan? i (w ++ z) = some (Token.scanBlank i (w ++ z)) := by
  obtain ⟨c, w, rfl⟩ := List.exists_cons_of_ne_nil hne
  have hc := Bytes.ink_eq_nil_iff.1 hw c (by simp)
  simp only [isBlank, Bool.or_eq_true, beq_iff_eq] at hc
  rcases hc with ((rfl | rfl) | rfl) | rfl <;> rfl

/-- White space is a token, unless it belongs to a comment. -/
theorem token_blank {e : Cursor} {w z : Bytes} (hne : w ≠ []) (hw : ink w = [])
    (hz : z.head?.any isBlank = false) (hpercent : z.head? = some Byte.percent → w.count Byte.newline ≠ 0)
    (hrest : e.rest = w ++ z) :
    ∃ t d, e.token = .ok (t, d) ∧ (t.kind = .space w ∨ t.kind = .parbreak w) ∧ d.rest = z := by
  obtain ⟨htake, hdrop⟩ := takeWhile_blank hw hz
  have hkind : ∃ k, Token.scan? e.inked e.rest = some k ∧ (k = .space w ∨ k = .parbreak w) := by
    rw [hrest, scan?_blank hne hw, Token.scanBlank, htake, hdrop]
    rw [if_neg (fun h => hpercent h.2 h.1)]
    split
    · exact ⟨_, rfl, .inr rfl⟩
    · exact ⟨_, rfl, .inl rfl⟩
  obtain ⟨k, hscan, hk⟩ := hkind
  have hraw : k.raw = w := by rcases hk with rfl | rfl <;> rfl
  obtain ⟨t, d, htoken, rfl, hd⟩ := token_of_scan? (hraw ▸ hrest) hscan
  exact ⟨t, d, htoken, hk, hd⟩

/-- A comment with the given content ends in front of `s`. -/
structure LineEnds (content s : Bytes) : Prop where
  oneLine : Byte.newline ∉ content
  breaks : (∃ rest, s = Byte.newline :: rest ∧ content.getLast? ≠ some Byte.carriageReturn) ∨
    ∃ rest, s = Byte.carriageReturn :: Byte.newline :: rest

/-- The content of a comment is what stands on its line. -/
theorem scanComment_of_lineEnds {i : Bool} {leading content s : Bytes} (h : LineEnds content s) :
    Token.scanComment i leading (content ++ s) =
      ⟨leading, content, Token.commentSuffix s, i⟩ := by
  have hline : ∀ b ∈ content, (b != Byte.newline) = true := by
    intro b hb
    rw [bne_iff_ne]
    rintro rfl
    exact h.oneLine hb
  rw [Token.scanComment]
  rcases h.breaks with ⟨rest, rfl, hlast⟩ | ⟨rest, rfl⟩
  · have htake : (content ++ Byte.newline :: rest).takeWhile (· != Byte.newline) = content := by
      rw [List.takeWhile_append_of_pos hline, List.takeWhile_cons_of_neg (by simp), List.append_nil]
    rw [htake, if_neg (by simpa using hlast)]
    simp
  · have htake : (content ++ Byte.carriageReturn :: Byte.newline :: rest).takeWhile
        (· != Byte.newline) = content ++ [Byte.carriageReturn] := by
      rw [List.takeWhile_append_of_pos hline, List.takeWhile_cons_of_pos (by decide),
        List.takeWhile_cons_of_neg (by simp)]
    rw [htake, if_pos (by simp)]
    simp

/-- A comment is a token that ends at or behind the end of its line. -/
theorem token_comment {e : Cursor} {w content s : Bytes} (hw : ink w = [])
    (hnewline : w.count Byte.newline = 0) (hends : LineEnds content s)
    (hrest : e.rest = w ++ Byte.percent :: (content ++ s)) :
    ∃ t d comment pre, e.token = .ok (t, d) ∧ t.kind = .comment comment ∧
      comment.content = content ∧ s = pre ++ d.rest ∧ ink pre = [] := by
  obtain ⟨rest, hsuffix⟩ := Token.commentSuffix_isPrefix s
  have hscan : Token.scan? e.inked e.rest =
      some (.comment ⟨w, content, Token.commentSuffix s, e.inked⟩) := by
    rw [hrest, ← scanComment_of_lineEnds hends]
    cases w with
    | nil => rfl
    | cons b w =>
      obtain ⟨htake, hdrop⟩ := takeWhile_blank (z := Byte.percent :: (content ++ s)) hw rfl
      rw [scan?_blank (List.cons_ne_nil b w) hw, Token.scanBlank, htake, hdrop]
      rw [if_pos ⟨hnewline, rfl⟩]
      rfl
  have hraw : e.rest = (Token.Kind.comment ⟨w, content, Token.commentSuffix s, e.inked⟩).raw ++ rest := by
    rw [hrest, Token.Kind.raw, Comment.raw]
    conv => lhs; rw [← hsuffix]
    simp
  obtain ⟨t, d, htoken, hkind, hd⟩ := token_of_scan? hraw hscan
  exact ⟨t, d, _, Token.commentSuffix s, htoken, hkind, rfl, by rw [hd, hsuffix],
    Token.ink_commentSuffix s⟩

/-! ## other readers -/

theorem skipSpace_of_rest {e : Cursor} {w z : Bytes} (hw : ink w = [])
    (hz : z.head?.any isBlank = false) (hcount : w.count Byte.newline ≤ 1) (hrest : e.rest = w ++ z) :
    e.skipSpace.1 = w ∧ e.skipSpace.2.rest = z := by
  obtain ⟨htake, -⟩ := takeWhile_blank hw hz
  unfold skipSpace
  rw [hrest, htake, if_neg (by omega)]
  exact ⟨rfl, by simp [hrest]⟩

theorem environmentName_append {c d e : Cursor} {name y : Bytes}
    (h : c.environmentName = .ok (name, d))
    (hrest : e.rest = Byte.openBrace :: (name ++ Byte.closeBrace :: y)) :
    ∃ d', e.environmentName = .ok (name, d') ∧ d'.rest = y := by
  unfold environmentName at *
  split at h
  · cases h
  · split at h
    · cases h
    · next found after hcut =>
      split at h
      · cases h
      · next hname =>
        cases h
        rw [Bytes.eq_of_cut hcut, ← List.append_assoc] at hcut
        have hcut' : Bytes.cut [Byte.closeBrace] e.rest.tail = some (name, y) := by
          rw [hrest]
          simpa using Bytes.cut_append (by decide) y hcut
        refine ⟨e.advance (name.length + 2), ?_, by simp [hrest]⟩
        rw [if_neg (by simp [peek?, hrest]), hcut']
        exact if_neg hname

theorem verbatimBody_append {c d e : Cursor} {name body y : Bytes}
    (h : c.verbatimBody name = some (body, d)) (hrest : e.rest = body ++ endMarker name ++ y) :
    ∃ d', e.verbatimBody name = some (body, d') ∧ d'.rest = y := by
  obtain ⟨found, hfound, hpair⟩ := Option.map_eq_some_iff.1 h
  cases hpair
  obtain ⟨x, hx⟩ := eq_of_bodyBefore? hfound
  rw [hx, ← List.append_assoc] at hfound
  have hmarker : endMarker name ≠ [] := by simp [endMarker]
  refine ⟨e.advance (body.length + (endMarker name).length), ?_, by simp [hrest]⟩
  rw [verbatimBody, hrest, bodyBefore?_append hmarker y hfound]
  rfl

/-- White space is a verbatim body. -/
theorem verbatimBody_white {e : Cursor} {name u y : Bytes} (hu : ink u = [])
    (hrest : e.rest = u ++ endMarker name ++ y) :
    ∃ d, e.verbatimBody name = some (u, d) ∧ d.rest = y := by
  obtain ⟨marker, hmarker⟩ : ∃ m, endMarker name = Byte.backslash :: m := ⟨_, rfl⟩
  have hbody : bodyBefore? (endMarker name) false (u ++ endMarker name ++ y) = some u := by
    rw [hmarker]
    clear hrest
    induction u with
    | nil => simp [bodyBefore?]
    | cons b u ih =>
      have hb := Bytes.ink_eq_nil_iff.1 hu b (by simp)
      have hne : b ≠ Byte.backslash := by
        rintro rfl
        cases hb
      rw [Bytes.ink_cons_of_blank hb] at hu
      have hnot : (b == Byte.backslash) = false := by simpa using hne
      simp [bodyBefore?, Ne.symm hne, hnot, ← ih hu]
  refine ⟨e.advance (u.length + (endMarker name).length), ?_, ?_⟩
  · rw [verbatimBody, hrest, hbody]
    rfl
  · rw [rest_advance, hrest, ← List.length_append, List.drop_left]

/-- A character begins with the next byte. -/
theorem character_head {c d : Cursor} {char : Bytes} {b : UInt8} (h : c.character = (char, d))
    (hb : c.peek? = some b) : ∃ s, char = b :: s := by
  obtain ⟨s, hs⟩ := List.head?_eq_some_iff.1 hb
  have hpos := Utf8.first_pos (s := c.rest) (by simp [hs])
  cases h
  obtain ⟨n, hn⟩ := Nat.exists_eq_succ_of_ne_zero (Nat.ne_of_gt hpos)
  rw [hn, hs]
  exact ⟨s.take n, rfl⟩

theorem character_append {c d e : Cursor} {char y : Bytes} (hne : c.rest ≠ [])
    (h : c.character = (char, d)) (hxy : Follows d.rest y) (hrest : e.rest = char ++ y) :
    ∃ d', e.character = (char, d') ∧ d'.rest = y := by
  cases h
  have hsplit : c.rest = c.rest.take (Utf8.first c.rest).2 ++ (c.advance (Utf8.first c.rest).2).rest := by
    simp
  have hlen : (c.rest.take (Utf8.first c.rest).2).length = (Utf8.first c.rest).2 := by
    simp [Utf8.first_le_length]
  have hchar : c.rest.take (Utf8.first c.rest).2 ≠ [] := by
    rw [← List.length_pos_iff, hlen]
    exact Utf8.first_pos hne
  have hsize : (Utf8.first e.rest).2 = (c.rest.take (Utf8.first c.rest).2).length := by
    rw [hrest]
    refine Utf8.first_append hchar ?_ hxy
    rw [← hsplit, hlen]
  refine ⟨e.advance (Utf8.first e.rest).2, ?_, ?_⟩
  · unfold character
    dsimp only
    rw [hsize]
    conv => lhs; rw [hrest]
    simp
  · rw [rest_advance, hsize, hrest]
    simp

theorem delimited_append {c d e : Cursor} {marker content y : Bytes}
    (h : c.delimited = .ok ((marker, content), d)) (hrest : e.rest = marker ++ content ++ marker ++ y) :
    ∃ d', e.delimited = .ok ((marker, content), d') ∧ d'.rest = y := by
  have htext := (delimited_reads h).text
  unfold delimited at *
  split at h
  · cases h
  · next hempty =>
    dsimp only at h ⊢
    split at h
    · cases h
    · next hallowed =>
      split at h
      · next found after hcut =>
        split at h
        · cases h
        · next hline =>
          have hmarker : c.rest.take (Utf8.first c.rest).2 = marker :=
            (Prod.mk.inj (Prod.mk.inj (Except.ok.inj h)).1).1
          have hfound : found = content := (Prod.mk.inj (Prod.mk.inj (Except.ok.inj h)).1).2
          subst hfound
          have hsize : (Utf8.first c.rest).2 = marker.length := by
            rw [← hmarker, List.length_take, Nat.min_eq_left (Utf8.first_le_length _)]
          have hne : marker ≠ [] := by
            intro hnil
            have hpos := Utf8.first_pos (s := c.rest) (by simpa using hempty)
            rw [hsize, hnil] at hpos
            cases hpos
          have hfirst : Utf8.first e.rest = Utf8.first c.rest := by
            obtain ⟨a, m, rfl⟩ := List.exists_cons_of_ne_nil hne
            rw [hrest, htext]
            simpa using Utf8.first_of_repeated a (m ++ found) (m ++ y) (m ++ d.rest)
          have hcut' : Bytes.cut marker (e.rest.drop marker.length) = some (found, y) := by
            rw [hmarker] at hcut
            rw [Bytes.eq_of_cut hcut, ← List.append_assoc] at hcut
            rw [hrest]
            simpa using Bytes.cut_append hne y hcut
          have htake : e.rest.take marker.length = marker := by
            rw [hrest]
            simp
          refine ⟨e.advance (marker.length + found.length + marker.length), ?_, ?_⟩
          · rw [if_neg (by simp [hrest, hne]), hfirst, if_neg hallowed, hsize, htake, hcut']
            exact if_neg hline
          · rw [rest_advance, hrest, ← List.length_append, ← List.length_append]
            simp
      · cases h

end Cursor

end TexTidy
