import TexTidy.Proofs.Complete
import TexTidy.Proofs.Lexeme

/-!
# TexTidy.Proofs.Delimiters

The delimiters of a source, found without reading the source as a document. A source is gone through token by
token; braces, `\(` and `\)`, `\[` and `\]`, and `\begin` and `\end` together with the name behind them, each give a
signal, and so do the two mistakes that can be seen right away: a `\begin` or `\end` without a proper name, and a
backslash that ends the source. Everything else gives none. Modes, arguments and registries play no part in this.

`Nested` is the grammar of signals that come in pairs.

The second half of the module says what the units that the parser reads signal:

* a token signals what its kind says (`Cursor.signals_token`);
* blanks and characters without a meaning of their own signal nothing, wherever the parser cuts them
  (`signals_skipSpace`, `signals_character`).
-/

namespace TexTidy

/-- What has to be closed again. -/
inductive Delimiter where
  | brace
  | environment (name : Bytes)
  | paren
  | bracket
  deriving DecidableEq, Repr

/-- What can be noticed about the delimiters of a source. -/
inductive Signal where
  | opens (d : Delimiter)
  | closes (d : Delimiter)
  /-- A `\begin` or `\end` without a proper name right behind it. -/
  | unnamed
  /-- A backslash at the end of the source. -/
  | loneBackslash
  deriving DecidableEq, Repr

namespace Signal

/-- Whether something is opened or closed. -/
def isDelimiter : Signal → Bool
  | .opens _ => true
  | .closes _ => true
  | .unnamed => false
  | .loneBackslash => false

/-! ## finding them -/

/-- The bytes that a name does not hold. -/
def forbidden : Bytes :=
  [Byte.space, Byte.tab, Byte.carriageReturn, Byte.newline, Byte.openBrace, Byte.backslash, Byte.percent]

/-- The name in braces that a text starts with. A name is not empty and holds no forbidden byte. -/
def bracedName? : Bytes → Option Bytes
  | [] => none
  | b :: s =>
    let name := s.takeWhile (· != Byte.closeBrace)
    if b ≠ Byte.openBrace ∨ name = s ∨ name = [] ∨ name.any forbidden.contains = true then none
    else some name

/-- The signal of an environment whose name stands at the start of a text, and the length of that name with its
    braces. -/
def named (signal : Delimiter → Signal) (s : Bytes) : List Signal × Nat :=
  match bracedName? s with
  | some name => ([signal (.environment name)], name.length + 2)
  | none => ([.unnamed], 0)

/-- What a command signals with a text behind it, and how much of that text belongs to it. -/
def ofCommand (name s : Bytes) : List Signal × Nat :=
  if name = bytes "begin" then named .opens s
  else if name = bytes "end" then named .closes s
  else if name = bytes "(" then ([.opens .paren], 0)
  else if name = bytes ")" then ([.closes .paren], 0)
  else if name = bytes "[" then ([.opens .bracket], 0)
  else if name = bytes "]" then ([.closes .bracket], 0)
  else ([], 0)

/-- What a token signals with a text behind it, and how much of that text belongs to it. -/
def ofKind (s : Bytes) : Token.Kind → List Signal × Nat
  | .openBrace => ([.opens .brace], 0)
  | .closeBrace => ([.closes .brace], 0)
  | .command name => ofCommand name s
  | _ => ([], 0)

/-- What is signalled at the start of a text, and the number of bytes it takes. -/
def first (s : Bytes) : List Signal × Nat :=
  match Token.scan? false s with
  | none => ([.loneBackslash], 1)
  | some k =>
    let found := ofKind (s.drop k.raw.length) k
    (found.1, k.raw.length + found.2)

/-- The signals of a text from the place behind its first `skip` bytes on. -/
def allFrom : Nat → Bytes → List Signal
  | _, [] => []
  | skip + 1, _ :: s => allFrom skip s
  | 0, b :: s => (first (b :: s)).1 ++ allFrom ((first (b :: s)).2 - 1) s

/-- The signals of a text. -/
def all (s : Bytes) : List Signal :=
  allFrom 0 s

/-- Signals that come in pairs, one inside the other or one after the other. -/
inductive Nested : List Signal → Prop
  | nil : Nested []
  | pair {d : Delimiter} {inner rest : List Signal} (inside : Nested inner) (behind : Nested rest) :
      Nested (.opens d :: (inner ++ .closes d :: rest))

theorem allFrom_eq (skip : Nat) (s : Bytes) : allFrom skip s = all (s.drop skip) := by
  induction skip generalizing s with
  | zero => rfl
  | succ skip ih =>
    cases s with
    | nil => rfl
    | cons b s => rw [allFrom, ih, List.drop_succ_cons]

/-- How much the first unit of a text takes is counted in bytes of the text. -/
theorem first_pos (b : UInt8) (s : Bytes) : 0 < (first (b :: s)).2 := by
  unfold first
  split
  · exact Nat.one_pos
  · next k hk =>
    have hraw := List.length_pos_iff.2 (Token.raw_scan?_ne_nil hk)
    dsimp only
    omega

theorem all_cons (b : UInt8) (s : Bytes) :
    all (b :: s) = (first (b :: s)).1 ++ all ((b :: s).drop (first (b :: s)).2) := by
  obtain ⟨n, hn⟩ := Nat.exists_eq_succ_of_ne_zero (Nat.ne_of_gt (first_pos b s))
  rw [all, allFrom, allFrom_eq, hn, List.drop_succ_cons]
  rfl

/-! ## what a token signals -/

/-- Whether a line has ink on it does not matter for what a token signals. -/
theorem exists_scan?_inked {i : Bool} {s : Bytes} {k : Token.Kind} (h : Token.scan? i s = some k) (j : Bool) :
    ∃ k', Token.scan? j s = some k' ∧ k'.raw = k.raw ∧ ∀ rest, ofKind rest k' = ofKind rest k := by
  cases s with
  | nil => exact ⟨k, h, rfl, fun _ => rfl⟩
  | cons c s =>
    rw [Token.scan?] at h ⊢
    cases hsingle : Token.single? c with
    | some _ =>
      rw [hsingle] at h
      exact ⟨k, h, rfl, fun _ => rfl⟩
    | none =>
      rw [hsingle] at h
      dsimp only at h ⊢
      by_cases hpercent : c = Byte.percent
      · rw [if_pos hpercent] at h ⊢
        cases h
        exact ⟨_, rfl, rfl, fun _ => rfl⟩
      rw [if_neg hpercent] at h ⊢
      by_cases hblank : isBlank c = true ∧ c ≠ Byte.dollar ∧ c ≠ Byte.backslash
      · obtain ⟨hblank, hdollar, hbackslash⟩ := hblank
        rw [if_neg hdollar, if_neg hbackslash, if_pos hblank] at h ⊢
        cases h
        refine ⟨_, rfl, ?_⟩
        unfold Token.scanBlank
        dsimp only
        split
        · exact ⟨rfl, fun _ => rfl⟩
        · exact ⟨rfl, fun _ => rfl⟩
      · -- what is neither a comment nor blank is read without a look at the line
        refine ⟨k, ?_, rfl, fun _ => rfl⟩
        rw [← h]
        split
        · rfl
        split
        · rfl
        split
        · next hdollar hbackslash hc => exact absurd ⟨hc, hdollar, hbackslash⟩ hblank
        · rfl

theorem first_of_scan? {i : Bool} {s : Bytes} {k : Token.Kind} (h : Token.scan? i s = some k) :
    first s = ((ofKind (s.drop k.raw.length) k).1,
      k.raw.length + (ofKind (s.drop k.raw.length) k).2) := by
  obtain ⟨k', hk', hraw, hkind⟩ := exists_scan?_inked h false
  simp only [first, hk', hraw, hkind]

end Signal

namespace Cursor

open Signal (Nested)

/-- The signals of what is left of a source. -/
def signals (c : Cursor) : List Signal :=
  Signal.all c.rest

variable {c d e : Cursor} {t : Token}

/-- A token signals what its kind says. -/
theorem signals_token (token : c.token = .ok (t, d)) (more : t.kind ≠ .endOfInput) :
    c.signals = (Signal.ofKind d.rest t.kind).1 ++
      Signal.all (d.rest.drop (Signal.ofKind d.rest t.kind).2) := by
  have hscan := scan?_of_token token
  have htext := (token_reads token).1.text
  have hdrop : c.rest.drop t.kind.raw.length = d.rest := by simp [htext]
  cases hrest : c.rest with
  | nil =>
    rw [hrest] at hscan
    exact absurd (Option.some.inj hscan).symm more
  | cons b s =>
    rw [signals, hrest, Signal.all_cons, ← hrest, Signal.first_of_scan? hscan, hdrop, ← List.drop_drop, hdrop]

/-- A token that is no delimiter signals nothing. -/
theorem signals_quiet (token : c.token = .ok (t, d)) (more : t.kind ≠ .endOfInput)
    (quiet : Signal.ofKind d.rest t.kind = ([], 0)) : c.signals = d.signals := by
  rw [signals_token token more, quiet]
  rfl

/-- A token that is a delimiter by itself. -/
theorem signals_single {signal : Signal} (token : c.token = .ok (t, d)) (more : t.kind ≠ .endOfInput)
    (single : Signal.ofKind d.rest t.kind = ([signal], 0)) : c.signals = signal :: d.signals := by
  rw [signals_token token more, single]
  rfl

/-- A backslash that ends the source is noticed. -/
theorem signals_error {f : Fault} (h : c.token = .error f) :
    ∃ more, c.signals = .loneBackslash :: more := by
  have hscan : Token.scan? c.inked c.rest = none := by
    unfold token at h
    split at h
    · cases h
    · next hnone => exact hnone
  have hscan' : Token.scan? false c.rest = none := by
    cases hk : Token.scan? false c.rest with
    | none => rfl
    | some k =>
      obtain ⟨k', hk', -⟩ := Signal.exists_scan?_inked hk c.inked
      rw [hscan] at hk'
      cases hk'
  cases hrest : c.rest with
  | nil =>
    rw [hrest] at hscan
    cases hscan
  | cons b s =>
    rw [hrest] at hscan'
    rw [signals, hrest, Signal.all_cons, Signal.first, hscan']
    exact ⟨_, rfl⟩

theorem signals_nil (h : c.rest = []) : c.signals = [] := by
  rw [signals, h]
  rfl

/-! ## names of environments -/

/-- A text is cut at its first closing brace. -/
theorem cut_closeBrace (s : Bytes) :
    Bytes.cut [Byte.closeBrace] s = none ∧ s.takeWhile (· != Byte.closeBrace) = s ∨
      s.takeWhile (· != Byte.closeBrace) ≠ s ∧
        ∃ after, Bytes.cut [Byte.closeBrace] s = some (s.takeWhile (· != Byte.closeBrace), after) := by
  induction s with
  | nil => exact .inl ⟨rfl, rfl⟩
  | cons b s ih =>
    by_cases hb : b = Byte.closeBrace
    · subst hb
      exact .inr ⟨by simp, s, rfl⟩
    · have hne : (b != Byte.closeBrace) = true := by simpa using hb
      have hcut : Bytes.cut [Byte.closeBrace] (b :: s) =
          (Bytes.cut [Byte.closeBrace] s).map fun split => (b :: split.1, split.2) := by
        rw [Bytes.cut, if_neg (by simpa [List.isPrefixOf] using Ne.symm hb)]
      have htake : (b :: s).takeWhile (· != Byte.closeBrace) = b :: s.takeWhile (· != Byte.closeBrace) :=
        List.takeWhile_cons_of_pos hne
      rw [hcut, htake]
      rcases ih with ⟨hnone, hall⟩ | ⟨hnot, after, hsome⟩
      · exact .inl ⟨by rw [hnone]; rfl, by rw [hall]⟩
      · exact .inr ⟨by simpa using hnot, after, by rw [hsome]; rfl⟩

/-- Names end in front of the same bytes when an environment is read. -/
theorem isNameBreaker_eq : isNameBreaker = Signal.forbidden.contains := by
  funext b
  rw [Bool.eq_iff_iff]
  simp only [isNameBreaker, isBlank, Signal.forbidden, Bool.or_eq_true, beq_iff_eq, List.contains_iff_mem,
    List.mem_cons, List.not_mem_nil]
  grind

/-- The name of an environment is the one that is signalled. -/
theorem environmentName_eq_ok_iff {name : Bytes} :
    d.environmentName = .ok (name, e) ↔
      Signal.bracedName? d.rest = some name ∧ e = d.advance (name.length + 2) := by
  constructor
  · intro h
    unfold environmentName at h
    split at h
    · cases h
    · next hopen =>
      obtain ⟨s, hs⟩ := List.head?_eq_some_iff.1 (Classical.not_not.1 hopen)
      rw [hs, List.tail_cons] at h
      rcases cut_closeBrace s with ⟨hcut, -⟩ | ⟨hnot, after, hcut⟩
      · rw [hcut] at h
        cases h
      · rw [hcut] at h
        dsimp only at h
        split at h
        · cases h
        · next hgood =>
          cases h
          rw [Bool.or_eq_true, List.isEmpty_iff, isNameBreaker_eq] at hgood
          refine ⟨?_, rfl⟩
          rw [hs, Signal.bracedName?, if_neg]
          exact fun hbad => hbad.elim (fun hne => hne rfl) fun hbad => hbad.elim hnot hgood
  · rintro ⟨hname, rfl⟩
    cases hrest : d.rest with
    | nil =>
      rw [hrest] at hname
      cases hname
    | cons b s =>
      rw [hrest, Signal.bracedName?] at hname
      split at hname
      · cases hname
      · next hgood =>
        cases hname
        obtain ⟨hopen, hnot, hgood⟩ : b = Byte.openBrace ∧ _ ∧ _ := by
          simpa only [not_or, Classical.not_not] using hgood
        rcases cut_closeBrace s with ⟨-, hall⟩ | ⟨-, after, hcut⟩
        · exact absurd hall hnot
        · have hpeek : d.peek? = some Byte.openBrace := by rw [peek?, hrest, hopen, List.head?_cons]
          rw [environmentName, if_neg (by simp [hpeek]), hrest, List.tail_cons, hcut]
          dsimp only
          rw [if_neg]
          rw [Bool.or_eq_true, List.isEmpty_iff, isNameBreaker_eq]
          exact fun hbad => hbad.elim hgood.1 hgood.2

/-- A `\begin` or `\end` with a proper name behind it. -/
theorem signals_named {signal : Delimiter → Signal} {name : Bytes} (token : c.token = .ok (t, d))
    (more : t.kind ≠ .endOfInput) (kind : Signal.ofKind d.rest t.kind = Signal.named signal d.rest)
    (h : d.environmentName = .ok (name, e)) : c.signals = signal (.environment name) :: e.signals := by
  obtain ⟨hname, rfl⟩ := environmentName_eq_ok_iff.1 h
  rw [signals_token token more, kind, Signal.named, hname, signals, rest_advance]
  rfl

end Cursor

/-! ## units that signal nothing -/

namespace Signal

/-- A unit that is no delimiter is passed over. -/
theorem all_of_scan? {i : Bool} {b : UInt8} {s rest : Bytes} {k : Token.Kind}
    (h : Token.scan? i (b :: s) = some k) (quiet : ofKind rest k = ([], 0)) (htext : b :: s = k.raw ++ rest) :
    all (b :: s) = all rest := by
  have hdrop : (b :: s).drop k.raw.length = rest := by simp [htext]
  rw [all_cons, first_of_scan? h, hdrop, quiet, Nat.add_zero, hdrop]
  rfl

/-- Text signals nothing, however much of it is taken. -/
theorem all_dropWhile_plain (s : Bytes) :
    all (s.dropWhile fun b => !isActive b && !isBlank b) = all s := by
  cases s with
  | nil => rfl
  | cons b s =>
    by_cases hplain : isActive b = false ∧ isBlank b = false
    · have hsplit : b :: s = ((b :: s).takeWhile fun b => !isActive b && !isBlank b) ++
          (b :: s).dropWhile fun b => !isActive b && !isBlank b :=
        List.takeWhile_append_dropWhile.symm
      exact (all_of_scan? (Token.scan?_text (i := false) hplain.1 hplain.2) rfl hsplit).symm
    · rw [List.dropWhile_cons_of_neg (by simpa using hplain)]

theorem all_cons_plain {b : UInt8} (hactive : isActive b = false) (hblank : isBlank b = false) (s : Bytes) :
    all (b :: s) = all s := by
  rw [← all_dropWhile_plain (b :: s), List.dropWhile_cons_of_pos (by simp [hactive, hblank]),
    all_dropWhile_plain]

/-- White space signals nothing, also where it is taken away from a comment. -/
theorem all_append_blank {w z : Bytes} (hw : Bytes.ink w = []) (hz : z.head?.any isBlank = false) :
    all (w ++ z) = all z := by
  cases w with
  | nil => rfl
  | cons b w =>
    obtain ⟨htake, hdrop⟩ := Cursor.takeWhile_blank hw hz
    have hscan := Cursor.scan?_blank (i := false) (z := z) (List.cons_ne_nil b w) hw
    rw [Token.scanBlank, htake, hdrop] at hscan
    by_cases hcomment : (b :: w).count Byte.newline = 0 ∧ z.head? = some Byte.percent
    · -- the comment behind the blanks ends where it ends with them
      obtain ⟨after, rfl⟩ := List.head?_eq_some_iff.1 hcomment.2
      obtain ⟨rest, hrest⟩ := Token.raw_scanComment_isPrefix false [] after
      rw [if_pos hcomment] at hscan
      have halone : all (Byte.percent :: after) = all rest :=
        all_of_scan? (i := false) (k := .comment (Token.scanComment false [] after)) rfl rfl hrest.symm
      rw [halone]
      refine all_of_scan? hscan rfl ?_
      have hraw := Token.raw_scanComment false false (b :: w) after
      calc b :: w ++ Byte.percent :: after
          = b :: w ++ ((Token.scanComment false [] after).raw ++ rest) := by rw [hrest]; rfl
        _ = (Token.scanComment false (b :: w) after).raw ++ rest := by rw [hraw, List.append_assoc]
    · rw [if_neg hcomment] at hscan
      refine all_of_scan? hscan ?_ ?_
      · split <;> rfl
      · split <;> rfl

end Signal

namespace Cursor

theorem signals_skipSpace (c : Cursor) : c.skipSpace.2.signals = c.signals := by
  unfold skipSpace
  dsimp only
  split
  · rfl
  · have hsplit : c.rest.takeWhile isBlank ++ c.rest.dropWhile isBlank = c.rest :=
      List.takeWhile_append_dropWhile
    have hdrop : (c.rest.takeWhile isBlank ++ c.rest.dropWhile isBlank).drop (c.rest.takeWhile isBlank).length =
        c.rest.dropWhile isBlank :=
      List.drop_left
    rw [hsplit] at hdrop
    have hall := Signal.all_append_blank
      (Bytes.ink_eq_nil_iff.2 fun b hb => List.mem_takeWhile_imp (l := c.rest) hb)
      (Bytes.head?_dropWhile isBlank c.rest)
    rw [signals, rest_advance, hdrop, ← hall, hsplit]
    rfl

/-- A character without a meaning of its own signals nothing. -/
theorem signals_character {c stop : Cursor} {b : UInt8} {char : Bytes} (sign : c.peek? = some b)
    (inert : (b ≠ 0 && !isActive b && !isBlank b) = true) (h : c.character = (char, stop)) :
    stop.signals = c.signals := by
  obtain ⟨s, hs⟩ := List.head?_eq_some_iff.1 sign
  obtain ⟨⟨-, hactive⟩, hblank⟩ : (b ≠ 0 ∧ isActive b = false) ∧ isBlank b = false := by simpa using inert
  obtain ⟨tail, htail, hall⟩ := Utf8.take_first b s
  have hreads := character_reads c
  rw [h] at hreads
  have hchar : char = b :: tail := by
    rw [character, hs] at h
    exact (Prod.mk.inj h).1.symm.trans htail
  rw [signals, signals, hreads.text, hchar, List.cons_append, Signal.all_cons_plain hactive hblank]
  clear htail hchar
  induction tail with
  | nil => rfl
  | cons a tail ih =>
    have ha := hall a List.mem_cons_self
    rw [List.cons_append, Signal.all_cons_plain (Utf8.isActive_of_isTail ha) (Utf8.isBlank_of_isTail ha)]
    exact ih fun x hx => hall x (List.mem_cons_of_mem a hx)

end Cursor

end TexTidy
