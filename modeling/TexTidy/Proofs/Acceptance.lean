import TexTidy.Proofs.Delimiters

/-!
# TexTidy.Proofs.Acceptance

Which sources are documents, as long as the registry defines nothing and no formula stands between dollar signs:
those whose delimiters come in pairs and that make none of the two mistakes of `Proofs.Delimiters`.

* Reading keeps the pairs: what a derivation moves over is nested (`Derives.balanced`).
* Nested delimiters are enough: from a place from which what is left nests up to the closing of a sequence, that
  sequence can be read (`exists_sequence`). One token is read at a time (`exists_item`), and what an opening
  delimiter opens is read first.

Scripts take part in both. Their argument can be a group, a command or a character, and neither a command nor a
character that is taken away from the text behind it changes what that text signals.
-/

namespace TexTidy

open Signal (Nested)

/-! ## nested signals -/

namespace Signal.Nested

variable {ms ns tail after : List Signal} {d : Delimiter}

theorem append (hms : Nested ms) (hns : Nested ns) : Nested (ms ++ ns) := by
  induction hms with
  | nil => exact hns
  | pair inside behind _ ih =>
    rw [List.cons_append, List.append_assoc, List.cons_append]
    exact .pair inside ih

theorem isDelimiter_of_mem (h : Nested ms) {s : Signal} (hs : s ∈ ms) : s.isDelimiter = true := by
  induction h with
  | nil => cases hs
  | pair inside behind ihInside ihBehind =>
    simp only [List.mem_cons, List.mem_append] at hs
    rcases hs with rfl | hs | rfl | hs
    · rfl
    · exact ihInside hs
    · rfl
    · exact ihBehind hs

/-- What opens first is closed before anything that comes after. -/
theorem exists_of_opens (h : Nested ms) (heq : ms ++ tail = .opens d :: after)
    (htail : ∀ e more, tail ≠ .opens e :: more) :
    ∃ inner rest, Nested inner ∧ Nested rest ∧ after = inner ++ .closes d :: (rest ++ tail) := by
  cases h with
  | nil => exact absurd heq (htail d after)
  | pair inside behind =>
    rw [List.cons_append, List.append_assoc, List.cons_append] at heq
    cases heq
    exact ⟨_, _, inside, behind, rfl⟩

/-- What closes first closes nothing that is nested. -/
theorem eq_nil_of_closes (h : Nested ms) (heq : ms ++ tail = .closes d :: after) : ms = [] := by
  cases h with
  | nil => rfl
  | pair inside behind => cases heq

end Signal.Nested

/-! ## what tokens signal -/

namespace Signal

theorem ofKind_plainLeaf? {mode : Mode} {k : Token.Kind} {l : Leaf} (h : Parse.plainLeaf? mode k = some l)
    (rest : Bytes) : ofKind rest k = ([], 0) ∧ k ≠ .endOfInput := by
  cases k with
  | endOfInput | openBrace | closeBrace | dollar | dollars | command => cases h
  | _ => exact ⟨rfl, by simp⟩

theorem ofCommand_free {name : Bytes} (free : Parse.isDelimiter name = false) (rest : Bytes) :
    ofCommand name rest = ([], 0) := by
  simp only [Parse.isDelimiter, List.contains_eq_mem, List.mem_cons, List.not_mem_nil, or_false,
    decide_eq_false_iff_not, not_or] at free
  obtain ⟨h1, h2, h3, h4, h5, h6⟩ := free
  simp only [ofCommand, h1, h2, h3, h4, h5, h6, if_false]

end Signal

namespace Cursor

variable {c d e f : Cursor} {t : Token}

theorem Reads.not_mem {s : Bytes} {b : UInt8} (h : Reads s c d) (hb : b ∉ c.rest) : b ∉ d.rest :=
  fun hmem => hb (h.text ▸ List.mem_append_right s hmem)

theorem not_dollar_of_token (hd : Byte.dollar ∉ c.rest) (token : c.token = .ok (t, d)) :
    Byte.dollar ∉ t.kind.raw :=
  fun hmem => hd ((token_reads token).1.text ▸ List.mem_append_left d.rest hmem)

theorem signals_free {name : Bytes} (token : c.token = .ok (t, d)) (kind : t.kind = .command name)
    (free : Parse.isDelimiter name = false) : c.signals = d.signals :=
  signals_quiet token (by simp [kind]) (by rw [kind]; exact Signal.ofCommand_free free d.rest)

/-- What is signalled between two places comes in pairs. -/
def Balances (c d : Cursor) : Prop :=
  ∃ ms, Nested ms ∧ c.signals = ms ++ d.signals

theorem Balances.of_eq (h : c.signals = d.signals) : c.Balances d :=
  ⟨[], .nil, h⟩

theorem Balances.trans (hcd : c.Balances d) (hde : d.Balances e) : c.Balances e := by
  obtain ⟨ms, hms, hc⟩ := hcd
  obtain ⟨ns, hns, hd⟩ := hde
  exact ⟨ms ++ ns, hms.append hns, by rw [hc, hd, List.append_assoc]⟩

theorem Balances.pair (δ : Delimiter) (opening : c.signals = .opens δ :: d.signals) (h : d.Balances e)
    (closing : e.signals = .closes δ :: f.signals) : c.Balances f := by
  obtain ⟨ms, hms, hd⟩ := h
  refine ⟨.opens δ :: (ms ++ .closes δ :: []), .pair hms .nil, ?_⟩
  rw [opening, hd, closing]
  simp

end Cursor

/-! ## reading keeps the pairs -/

namespace Parse

open Cursor (Balances)

/-- What closes a sequence, if nothing but a delimiter of one kind can. -/
theorem Derives.closing_signals {r : Registry} {mode : Mode} {closer : Closer} {c : Cursor} {body : Sequence}
    {found : List Signal} (h : Derives r (.sequence mode closer c body)) (closed : body.isOpen = false)
    (ends : ∀ k rest, closer.Ends k → Signal.ofKind rest k = (found, 0)) :
    body.before.signals = found ++ body.cursor.signals := by
  have hends : closer.Ends body.last.kind := h.ends closed
  have hmore : body.last.kind ≠ .endOfInput := by simpa [Sequence.isOpen] using closed
  rw [Cursor.signals_token h.stops hmore, ends _ _ hends]
  rfl

/-- What is read without dollar signs is nested. -/
def Judgement.Balanced : Judgement → Prop
  | .sequence _ _ c s => Byte.dollar ∉ c.rest → c.Balances s.before
  | .item _ c _ d => Byte.dollar ∉ c.rest → c.Balances d
  | .arguments _ _ c _ d => Byte.dollar ∉ c.rest → c.Balances d

/-- **What a derivation moves over is nested.** -/
theorem Derives.balanced {j : Judgement} (h : Derives .empty j) : j.Balanced := by
  induction h with
  | stop token closed => exact fun _ => .of_eq rfl
  | next token pass more head rest ihHead ihRest =>
    intro hd
    exact (ihHead hd).trans (ihRest (head.moves.1.not_mem hd))
  | leaf token plain =>
    intro _
    obtain ⟨hquiet, hmore⟩ := Signal.ofKind_plainLeaf? plain _
    exact .of_eq (Cursor.signals_quiet token hmore hquiet)
  | script token kind sign taken ih =>
    intro hd
    refine (Balances.of_eq ?_).trans (ih ((Cursor.token_reads token).1.not_mem hd))
    exact Cursor.signals_quiet token (by simp [kind]) (by rw [kind]; rfl)
  | group token kind content closed ih =>
    intro hd
    refine .pair .brace ?_ (ih ((Cursor.token_reads token).1.not_mem hd)) ?_
    · exact Cursor.signals_single token (by simp [kind]) (by rw [kind]; rfl)
    · exact content.closing_signals closed fun k rest hk => by rw [hk]; rfl
  | formula token kind content closed ih =>
    intro hd
    have hinside := ih ((Cursor.token_reads token).1.not_mem hd)
    rcases formula?_cases kind with ⟨hk, -⟩ | ⟨hk, rfl, -⟩ | ⟨hk, rfl, -⟩
    · exact absurd (Cursor.not_dollar_of_token hd token) (by rw [hk]; decide)
    · refine .pair .paren ?_ hinside ?_
      · exact Cursor.signals_single token (by simp [hk]) (by rw [hk]; rfl)
      · exact content.closing_signals closed fun k rest hk => by rw [hk]; rfl
    · refine .pair .bracket ?_ hinside ?_
      · exact Cursor.signals_single token (by simp [hk]) (by rw [hk]; rfl)
      · exact content.closing_signals closed fun k rest hk => by rw [hk]; rfl
  | dollar token kind content closed half ih =>
    intro hd
    exact absurd (Cursor.not_dollar_of_token hd token) (by rw [kind]; decide)
  | emptyDollars token kind =>
    intro hd
    exact absurd (Cursor.not_dollar_of_token hd token) (by rw [kind]; decide)
  | @environment _ c _ _ name e _ _ body stop token kind opening nodes taken content closed closing ihArgs ihBody =>
    intro hd
    have hname := ((Cursor.token_reads token).1.trans (Cursor.environmentName_reads opening)).not_mem hd
    have hbegin : c.signals = .opens (.environment name) :: e.signals :=
      Cursor.signals_named token (by simp [kind]) (by rw [kind]; rfl) opening
    have hends : body.last.kind = .command (bytes "end") := content.ends closed
    have hend : body.before.signals = .closes (.environment name) :: stop.signals :=
      Cursor.signals_named content.stops (by simp [hends]) (by rw [hends]; rfl) closing
    exact .pair (.environment name) hbegin ((ihArgs hname).trans (ihBody (taken.moves.not_mem hname))) hend
  | verbatim token kind opening raw taken content ihArgs => cases raw
  | verb token kind known free starred star_eq content => cases known
  | command token kind known free taken ih =>
    intro hd
    exact (Balances.of_eq (Cursor.signals_free token kind free)).trans
      (ih ((Cursor.token_reads token).1.not_mem hd))
  | done => exact fun _ => .of_eq rfl
  | absent missing others ih => exact ih
  | star sign others ih =>
    intro hd
    obtain ⟨s, hs⟩ := List.head?_eq_some_iff.1 sign
    refine (Balances.of_eq ?_).trans (ih ((Cursor.peek_reads sign).not_mem hd))
    rw [Cursor.signals, hs, Signal.all_cons_plain (by decide) (by decide), Cursor.signals, Cursor.rest_advance, hs]
    rfl
  | @optional _ _ _ body _ _ sign content closed others ihContent ihOthers =>
    intro hd
    obtain ⟨t, token, kind⟩ := Cursor.token_of_single (k := .openBracket) sign rfl
    have hinside := (Cursor.peek_reads sign).not_mem hd
    have hopening := Cursor.signals_quiet token (by simp [kind]) (by rw [kind]; rfl)
    have hclosing : body.before.signals = [] ++ body.cursor.signals :=
      content.closing_signals closed fun k rest hk => by rw [hk]; rfl
    refine (Balances.of_eq hopening).trans ((ihContent hinside).trans ((Balances.of_eq hclosing).trans (ihOthers ?_)))
    exact content.moves.2.1.not_mem (content.moves.1.not_mem hinside)
  | @braced mode kinds c body args d sign content closed others ihContent ihOthers =>
    intro hd
    obtain ⟨t, token, kind⟩ := Cursor.token_of_single (k := .openBrace) sign rfl
    have hinside := ((Cursor.skipSpace_reads c).trans (Cursor.peek_reads sign)).not_mem hd
    have hopening := Cursor.signals_single token (by simp [kind]) (by rw [kind]; rfl)
    have hclosing := content.closing_signals closed fun k rest hk => by rw [hk]; rfl
    refine (Balances.of_eq (Cursor.signals_skipSpace c).symm).trans
      ((Balances.pair .brace hopening (ihContent hinside) hclosing).trans (ihOthers ?_))
    exact content.moves.2.1.not_mem (content.moves.1.not_mem hinside)
  | @bareCommand mode kinds c t name stop args d token kind known free others ih =>
    intro hd
    have hquiet := (Cursor.signals_skipSpace c).symm.trans (Cursor.signals_free token kind free)
    exact (Balances.of_eq hquiet).trans
      (ih (((Cursor.skipSpace_reads c).trans (Cursor.token_reads token).1).not_mem hd))
  | @bareCharacter mode kinds c b char stop args d sign inert content others ih =>
    intro hd
    have hchar := Cursor.character_reads c.skipSpace.2
    rw [content] at hchar
    have hquiet := (Cursor.signals_character sign inert content).trans (Cursor.signals_skipSpace c)
    exact (Balances.of_eq hquiet.symm).trans (ih (((Cursor.skipSpace_reads c).trans hchar).not_mem hd))

end Parse

/-! ## nested delimiters are enough -/

namespace Cursor

variable {c d e : Cursor} {t : Token} {tail : List Signal}

/-- What is left nests up to `tail`, and is delimiters only. -/
structure Ready (tail : List Signal) (c : Cursor) : Prop where
  plain : Byte.dollar ∉ c.rest
  tidy : ∀ s ∈ tail, s.isDelimiter = true
  nested : ∃ ms, Nested ms ∧ c.signals = ms ++ tail

theorem Ready.not_mem {s : Signal} (h : c.Ready tail) (hs : s.isDelimiter = false) : s ∉ c.signals := by
  obtain ⟨ms, hms, hc⟩ := h.nested
  rw [hc, List.mem_append]
  rintro (hmem | hmem)
  · simp [hms.isDelimiter_of_mem hmem] at hs
  · simp [h.tidy s hmem] at hs

/-- A unit that signals nothing is passed over. -/
theorem Ready.move {s : Bytes} (h : c.Ready tail) (hreads : Reads s c d) (heq : c.signals = d.signals) :
    d.Ready tail :=
  ⟨hreads.not_mem h.plain, h.tidy, heq ▸ h.nested⟩

/-- A place from which what is left is nested has a token. -/
theorem Ready.token (h : c.Ready tail) : ∃ t d, c.token = .ok (t, d) := by
  cases htoken : c.token with
  | ok p => exact ⟨p.1, p.2, rfl⟩
  | error f =>
    obtain ⟨more, hc⟩ := signals_error htoken
    exact absurd (hc ▸ List.mem_cons_self) (h.not_mem (s := .loneBackslash) rfl)

/-- A `\begin` or `\end` among nested delimiters has a proper name. -/
theorem Ready.environmentName {signal : Delimiter → Signal} (h : c.Ready tail) (token : c.token = .ok (t, d))
    (more : t.kind ≠ .endOfInput) (kind : Signal.ofKind d.rest t.kind = Signal.named signal d.rest) :
    ∃ name e, d.environmentName = .ok (name, e) := by
  cases hname : Signal.bracedName? d.rest with
  | some name => exact ⟨name, _, environmentName_eq_ok_iff.2 ⟨hname, rfl⟩⟩
  | none =>
    have hc := signals_token token more
    rw [kind, Signal.named, hname] at hc
    exact absurd (hc ▸ List.mem_cons_self) (h.not_mem (s := .unnamed) rfl)

end Cursor

namespace Parse

open Cursor (Ready)

/-- What is left where a sequence has to end. -/
inductive Closer.Awaits : Closer → List Signal → Prop
  | document : Awaits .document []
  | brace {more : List Signal} : Awaits .brace (.closes .brace :: more)
  | environment {name : Bytes} {more : List Signal} : Awaits .environment (.closes (.environment name) :: more)
  | paren {more : List Signal} : Awaits (.command (bytes ")")) (.closes .paren :: more)
  | bracket {more : List Signal} : Awaits (.command (bytes "]")) (.closes .bracket :: more)

/-- The tokens that close something. -/
def closings : List Token.Kind :=
  [.closeBrace, .command (bytes "end"), .command (bytes ")"), .command (bytes "]")]

/-- A token that closes nothing leaves a sequence waiting. -/
theorem Closer.Awaits.pass {closer : Closer} {tail : List Signal} {k : Token.Kind} (h : closer.Awaits tail)
    (hk : k ∉ closings) : closer.pass k = some closer := by
  simp only [closings, List.mem_cons, List.not_mem_nil, or_false, not_or] at hk
  obtain ⟨hbrace, hend, hparen, hbracket⟩ := hk
  cases h with
  | document => rfl
  | brace => exact if_neg hbrace
  | environment => exact if_neg hend
  | paren => exact if_neg hparen
  | bracket => exact if_neg hbracket

/-- Sequences that start at a place can be read. -/
def Readable (c : Cursor) : Prop :=
  ∀ (mode : Mode) {closer : Closer} {tail : List Signal}, c.Ready tail → closer.Awaits tail →
    ∃ s, Derives .empty (.sequence mode closer c s) ∧ s.before.signals = tail

variable {c d e : Cursor} {t : Token} {tail : List Signal} {closer : Closer} {mode : Mode} {δ : Delimiter}

/-- What an opening delimiter opens can be read up to where it is closed. -/
theorem exists_body (mode : Mode) {inner : Closer} {s : Bytes} (ih : Readable d) (h : c.Ready tail)
    (await : closer.Awaits tail) (hreads : c.Reads s d) (opening : c.signals = .opens δ :: d.signals)
    (hinner : ∀ more, inner.Awaits (.closes δ :: more)) :
    ∃ body rest, Derives .empty (.sequence mode inner d body) ∧ body.isOpen = false ∧ Nested rest ∧
      body.before.Ready (.closes δ :: (rest ++ tail)) ∧ body.before.signals = .closes δ :: (rest ++ tail) := by
  obtain ⟨ms, hms, hc⟩ := h.nested
  obtain ⟨before, rest, hbefore, hrest, hd⟩ := hms.exists_of_opens (hc.symm.trans opening) (by cases await <;> simp)
  have htidy : ∀ s ∈ Signal.closes δ :: (rest ++ tail), s.isDelimiter = true := by
    intro s hs
    rcases List.mem_cons.1 hs with rfl | hs
    · rfl
    · exact (List.mem_append.1 hs).elim hrest.isDelimiter_of_mem (h.tidy s)
  have hplain := hreads.not_mem h.plain
  obtain ⟨body, hbody, hsignals⟩ := ih mode ⟨hplain, htidy, before, hbefore, hd⟩ (hinner (rest ++ tail))
  refine ⟨body, rest, hbody, ?_, hrest, ⟨hbody.moves.1.not_mem hplain, htidy, [], .nil, hsignals⟩, hsignals⟩
  -- where the source ends nothing is signalled
  refine Bool.eq_false_iff.2 fun hopen => ?_
  have hnil := Cursor.signals_nil (Cursor.rest_of_endOfInput hbody.stops (by simpa [Sequence.isOpen] using hopen))
  rw [hsignals] at hnil
  cases hnil

/-- What is closed by a delimiter of its own is read together with that. -/
theorem exists_closed_body (mode : Mode) {inner : Closer} {s : Bytes} (ih : Readable d) (h : c.Ready tail)
    (await : closer.Awaits tail) (hreads : c.Reads s d) (opening : c.signals = .opens δ :: d.signals)
    (hinner : ∀ more, inner.Awaits (.closes δ :: more))
    (ends : ∀ k rest, inner.Ends k → Signal.ofKind rest k = ([.closes δ], 0)) :
    ∃ body, Derives .empty (.sequence mode inner d body) ∧ body.isOpen = false ∧ body.cursor.Ready tail := by
  obtain ⟨body, rest, hbody, hclosed, hrest, hbefore, hsignals⟩ := exists_body mode ih h await hreads opening hinner
  have hclosing := hbody.closing_signals hclosed ends
  rw [hsignals] at hclosing
  exact ⟨body, hbody, hclosed, hbody.moves.2.1.not_mem hbefore.plain, h.tidy, rest, hrest,
    (List.cons.inj hclosing).2.symm⟩

/-! ### arguments of scripts -/

/-- A command that is the argument of a script, or the lack of one in front of a delimiter. -/
theorem exists_bareCommand {s : Bytes} (h : c.skipSpace.2.Ready tail)
    (hrest : c.skipSpace.2.rest = Byte.backslash :: s) (hc : c.Ready tail) :
    ∃ args e, Derives .empty (.arguments .math [.mandatory] c args e) ∧ e.Ready tail := by
  obtain ⟨t, stop, token⟩ := h.token
  obtain ⟨hmore, kind⟩ := kind_of_backslash hrest token
  cases free : isDelimiter (Token.commandName s) with
  | true =>
    refine ⟨[], c, .absent ?_ .done, hc⟩
    have hne : s.isEmpty = false := by simpa using hmore
    simp [isAbsent, beginsArgument, hrest, free, hne, Byte.openBrace, Byte.backslash]
  | false =>
    exact ⟨_, stop, .bareCommand token kind rfl free .done,
      h.move (Cursor.token_reads token).1 (Cursor.signals_free token kind free)⟩

/-- A script takes what is behind it, or nothing. -/
theorem exists_scriptArgument (ih : ∀ d : Cursor, d.rest.length < c.rest.length → Readable d)
    (h : c.Ready tail) (await : closer.Awaits tail) :
    ∃ args e, Derives .empty (.arguments .math [.mandatory] c args e) ∧ e.Ready tail := by
  have hspace := Cursor.skipSpace_reads c
  have hhere : c.skipSpace.2.Ready tail := h.move hspace (Cursor.signals_skipSpace c).symm
  have hlength := hspace.length
  cases hrest : c.skipSpace.2.rest with
  | nil =>
    refine ⟨[], c, .absent ?_ .done, h⟩
    simp [isAbsent, beginsArgument, hrest]
  | cons b s =>
    have hsign : c.skipSpace.2.peek? = some b := by rw [Cursor.peek?, hrest, List.head?_cons]
    by_cases hopen : b = Byte.openBrace
    · subst hopen
      obtain ⟨t, token, kind⟩ := Cursor.token_of_single (k := .openBrace) hsign rfl
      have hshort := Cursor.token_length token (by simp [kind])
      obtain ⟨body, hbody, hclosed, hready⟩ := exists_closed_body .math (ih _ (by omega)) hhere await
        (Cursor.peek_reads hsign) (Cursor.signals_single token (by simp [kind]) (by rw [kind]; rfl))
        (fun _ => .brace) (fun k rest hk => by rw [hk]; rfl)
      exact ⟨_, _, .braced hsign hbody hclosed .done, hready⟩
    · by_cases hslash : b = Byte.backslash
      · subst hslash
        exact exists_bareCommand hhere hrest h
      · cases inert : (b ≠ 0 && !isActive b && !isBlank b) with
        | false =>
          refine ⟨[], c, .absent ?_ .done, h⟩
          simp only [isAbsent, beginsArgument, hrest, if_neg hopen, if_neg hslash, inert]
          rfl
        | true =>
          have hchar := Cursor.signals_character hsign inert rfl
          exact ⟨_, _, .bareCharacter hsign inert rfl .done,
            hhere.move (Cursor.character_reads _) hchar.symm⟩

/-! ### sequences -/

/-- A node in front of a sequence that can be read. -/
theorem exists_sequence_of_item {n : Node} (ih : ∀ d : Cursor, d.rest.length < c.rest.length → Readable d)
    (token : c.token = .ok (t, d)) (more : t.kind ≠ .endOfInput) (await : closer.Awaits tail)
    (pass : t.kind ∉ closings) (head : Derives .empty (.item mode c n e)) (h : e.Ready tail) :
    ∃ s, Derives .empty (.sequence mode closer c s) ∧ s.before.signals = tail := by
  obtain ⟨s, hs, hsignals⟩ := ih e head.item_length mode h await
  exact ⟨_, .next token (await.pass pass) more head hs, hsignals⟩

/-- A sequence ends at the first delimiter that closes something. -/
theorem exists_sequence_of_closing {more : List Signal} (h : c.Ready tail) (token : c.token = .ok (t, d))
    (closing : c.signals = .closes δ :: more)
    (pass : ∀ more, closer.Awaits (.closes δ :: more) → closer.pass t.kind = none)
    (await : closer.Awaits tail) :
    ∃ s, Derives .empty (.sequence mode closer c s) ∧ s.before.signals = tail := by
  obtain ⟨ms, hms, hc⟩ := h.nested
  have hnil := hms.eq_nil_of_closes (hc.symm.trans closing)
  rw [hnil, List.nil_append] at hc
  rw [← hc, closing] at await
  exact ⟨_, .stop token (.inl (pass _ await)), hc⟩

/-- An environment, if its `\begin` is the first delimiter. -/
theorem exists_environment (mode : Mode) (ih : ∀ d : Cursor, d.rest.length < c.rest.length → Readable d)
    (h : c.Ready tail) (await : closer.Awaits tail) (token : c.token = .ok (t, d))
    (kind : t.kind = .command (bytes "begin")) :
    ∃ n e, Derives .empty (.item mode c n e) ∧ e.Ready tail := by
  have hmore : t.kind ≠ .endOfInput := by simp [kind]
  have hnamed : Signal.ofKind d.rest t.kind = Signal.named .opens d.rest := by rw [kind]; rfl
  obtain ⟨name, e, opening⟩ := h.environmentName token hmore hnamed
  have hname := Cursor.environmentName_reads opening
  have hlength := hname.length
  have hshort := Cursor.token_length token hmore
  obtain ⟨body, rest, hbody, hclosed, hrest, hbefore, hsignals⟩ := exists_body mode (ih e (by omega)) h await
    ((Cursor.token_reads token).1.trans hname) (Cursor.signals_named token hmore hnamed opening)
    (fun _ => .environment)
  have hends : body.last.kind = .command (bytes "end") := hbody.ends hclosed
  have hlast : body.last.kind ≠ .endOfInput := by simp [hends]
  have hnamed' : Signal.ofKind body.cursor.rest body.last.kind = Signal.named .closes body.cursor.rest := by
    rw [hends]; rfl
  obtain ⟨found, stop, closing⟩ := hbefore.environmentName hbody.stops hlast hnamed'
  have hclosing := Cursor.signals_named hbody.stops hlast hnamed' closing
  rw [hsignals] at hclosing
  obtain ⟨hfound, hstop⟩ := List.cons.inj hclosing
  cases hfound
  have hplain := (hbody.moves.2.1.trans (Cursor.environmentName_reads closing)).not_mem hbefore.plain
  exact ⟨_, stop, .environment token kind opening rfl .done hbody hclosed closing,
    hplain, h.tidy, rest, hrest, hstop.symm⟩

/-- A formula, if what opens it is the first delimiter. -/
theorem exists_formula {inner : Closer} {shape : Shape} (mode : Mode)
    (ih : ∀ d : Cursor, d.rest.length < c.rest.length → Readable d) (h : c.Ready tail)
    (await : closer.Awaits tail) (token : c.token = .ok (t, d)) (more : t.kind ≠ .endOfInput)
    (formula : formula? t.kind = some (inner, shape)) (opening : Signal.ofKind d.rest t.kind = ([.opens δ], 0))
    (hinner : ∀ more, inner.Awaits (.closes δ :: more))
    (ends : ∀ k rest, inner.Ends k → Signal.ofKind rest k = ([.closes δ], 0)) :
    ∃ n e, Derives .empty (.item mode c n e) ∧ e.Ready tail := by
  obtain ⟨body, hbody, hclosed, hready⟩ := exists_closed_body .math (ih d (Cursor.token_length token more)) h await
    (Cursor.token_reads token).1 (Cursor.signals_single token more opening) hinner ends
  exact ⟨_, _, .formula token formula hbody hclosed, hready⟩

/-- A command takes part in the nesting if it is a delimiter, and is a node by itself otherwise. -/
theorem exists_sequence_of_command {name : Bytes} (mode : Mode)
    (ih : ∀ d : Cursor, d.rest.length < c.rest.length → Readable d) (h : c.Ready tail)
    (await : closer.Awaits tail) (token : c.token = .ok (t, d)) (kind : t.kind = .command name) :
    ∃ s, Derives .empty (.sequence mode closer c s) ∧ s.before.signals = tail := by
  have hmore : t.kind ≠ .endOfInput := by simp [kind]
  cases free : isDelimiter name with
  | false =>
    have hready := h.move (Cursor.token_reads token).1 (Cursor.signals_free token kind free)
    refine exists_sequence_of_item ih token hmore await ?_ (.command token kind rfl free .done) hready
    rw [kind, closings]
    simp only [isDelimiter, List.contains_eq_mem, List.mem_cons, List.not_mem_nil, or_false,
      decide_eq_false_iff_not, not_or] at free
    simp [free]
  | true =>
    simp only [isDelimiter, List.contains_eq_mem, List.mem_cons, List.not_mem_nil, or_false,
      decide_eq_true_eq] at free
    rcases free with rfl | rfl | rfl | rfl | rfl | rfl
    · obtain ⟨n, e, head, hready⟩ := exists_environment mode ih h await token kind
      exact exists_sequence_of_item ih token hmore await (by rw [kind]; decide) head hready
    · have hnamed : Signal.ofKind d.rest t.kind = Signal.named .closes d.rest := by rw [kind]; rfl
      obtain ⟨name, e, closing⟩ := h.environmentName token hmore hnamed
      refine exists_sequence_of_closing h token (Cursor.signals_named token hmore hnamed closing) ?_ await
      rintro more ⟨⟩
      rw [kind]
      rfl
    · obtain ⟨n, e, head, hready⟩ := exists_formula mode ih h await token hmore (by rw [kind]; rfl)
        (by rw [kind]; rfl) (fun _ => .paren) (fun k rest hk => by rw [hk]; rfl)
      exact exists_sequence_of_item ih token hmore await (by rw [kind]; decide) head hready
    · refine exists_sequence_of_closing h token (Cursor.signals_single token hmore (by rw [kind]; rfl)) ?_ await
      rintro more ⟨⟩
      rw [kind]
      rfl
    · obtain ⟨n, e, head, hready⟩ := exists_formula mode ih h await token hmore (by rw [kind]; rfl)
        (by rw [kind]; rfl) (fun _ => .bracket) (fun k rest hk => by rw [hk]; rfl)
      exact exists_sequence_of_item ih token hmore await (by rw [kind]; decide) head hready
    · refine exists_sequence_of_closing h token (Cursor.signals_single token hmore (by rw [kind]; rfl)) ?_ await
      rintro more ⟨⟩
      rw [kind]
      rfl

/-- A token that is a node by itself. -/
theorem exists_sequence_of_leaf {l : Leaf} (ih : ∀ d : Cursor, d.rest.length < c.rest.length → Readable d)
    (h : c.Ready tail) (await : closer.Awaits tail) (token : c.token = .ok (t, d))
    (plain : plainLeaf? mode t.kind = some l) :
    ∃ s, Derives .empty (.sequence mode closer c s) ∧ s.before.signals = tail := by
  obtain ⟨hquiet, hmore⟩ := Signal.ofKind_plainLeaf? plain d.rest
  have hready := h.move (Cursor.token_reads token).1 (Cursor.signals_quiet token hmore hquiet)
  refine exists_sequence_of_item ih token hmore await ?_ (.leaf token plain) hready
  intro hmem
  simp only [closings, List.mem_cons, List.not_mem_nil, or_false] at hmem
  rcases hmem with hk | hk | hk | hk
  all_goals
    rw [hk] at plain
    cases plain

/-- **Where what is left nests up to what closes a sequence, the sequence can be read.** -/
theorem readable (c : Cursor) : Readable c := by
  induction hlength : c.rest.length using Nat.strong_induction_on generalizing c with
  | _ n shorter =>
    subst hlength
    have ih : ∀ d : Cursor, d.rest.length < c.rest.length → Readable d := fun d hd => shorter _ hd d rfl
    intro mode closer tail h await
    obtain ⟨t, d, token⟩ := h.token
    cases kind : t.kind with
    | endOfInput =>
      obtain ⟨ms, -, hc⟩ := h.nested
      have hnil := Cursor.signals_nil (Cursor.rest_of_endOfInput token kind)
      refine ⟨_, .stop token (.inr kind), hnil.trans ?_⟩
      exact (List.append_eq_nil_iff.1 (hc.symm.trans hnil)).2.symm
    | openBrace =>
      have hmore : t.kind ≠ .endOfInput := by simp [kind]
      obtain ⟨body, hbody, hclosed, hready⟩ := exists_closed_body mode (ih d (Cursor.token_length token hmore)) h
        await (Cursor.token_reads token).1 (Cursor.signals_single token hmore (by rw [kind]; rfl))
        (fun _ => .brace) (fun k rest hk => by rw [hk]; rfl)
      exact exists_sequence_of_item ih token hmore await (by rw [kind]; decide) (.group token kind hbody hclosed)
        hready
    | closeBrace =>
      have hclosing : c.signals = .closes .brace :: d.signals :=
        Cursor.signals_single token (by simp [kind]) (by rw [kind]; rfl)
      refine exists_sequence_of_closing h token hclosing ?_ await
      rintro more ⟨⟩
      rw [kind]
      rfl
    | dollar => exact absurd (Cursor.not_dollar_of_token h.plain token) (by rw [kind]; decide)
    | dollars => exact absurd (Cursor.not_dollar_of_token h.plain token) (by rw [kind]; decide)
    | command name => exact exists_sequence_of_command mode ih h await token kind
    | symbol char =>
      by_cases hscript : mode = .math ∧ (char = Byte.caret ∨ char = Byte.underscore)
      · obtain ⟨rfl, sign⟩ := hscript
        have hmore : t.kind ≠ .endOfInput := by simp [kind]
        have hshort := Cursor.token_length token hmore
        have hready := h.move (Cursor.token_reads token).1
          (Cursor.signals_quiet token hmore (by rw [kind]; rfl))
        obtain ⟨args, e, taken, hready⟩ :=
          exists_scriptArgument (fun f hf => ih f (Nat.lt_trans hf hshort)) hready await
        exact exists_sequence_of_item ih token hmore await (by rw [kind]; simp [closings])
          (.script token kind sign taken) hready
      · exact exists_sequence_of_leaf ih h await token (by rw [kind, plainLeaf?, if_neg hscript])
    | text | openBracket | closeBracket | space | parbreak | comment =>
      exact exists_sequence_of_leaf ih h await token (by rw [kind]; rfl)

end Parse

/-! ## documents -/

/-- **Exactly the sources whose delimiters are nested are documents.** Without a registry and without dollar signs,
    a source can be read if and only if no backslash ends it, every environment is properly named where it begins
    and where it ends, and its delimiters come in pairs. -/
theorem Parse.accepts_iff_nested {src : Bytes} (plain : Byte.dollar ∉ src) :
    (∃ tree, Parse.document .empty src = .ok tree) ↔
      Signal.loneBackslash ∉ Signal.all src ∧ Signal.unnamed ∉ Signal.all src ∧
        Nested ((Signal.all src).filter Signal.isDelimiter) := by
  have hsignals : (Cursor.ofOffset src 0).signals = Signal.all src := rfl
  constructor
  · rintro ⟨tree, h⟩
    obtain ⟨body, hbody, -⟩ := derives_of_document h
    obtain ⟨ms, hms, hall⟩ := hbody.balanced plain
    -- a document ends with its source only
    have hend : body.before.signals = [] :=
      Cursor.signals_nil (hbody.moves.2.2.elim And.right fun hends => hends.elim)
    rw [hsignals, hend, List.append_nil] at hall
    rw [hall, List.filter_eq_self.2 fun s hs => hms.isDelimiter_of_mem hs]
    exact ⟨fun hs => absurd (hms.isDelimiter_of_mem hs) (by decide),
      fun hs => absurd (hms.isDelimiter_of_mem hs) (by decide), hms⟩
  · rintro ⟨hlone, hunnamed, hnested⟩
    have hall : (Signal.all src).filter Signal.isDelimiter = Signal.all src := by
      refine List.filter_eq_self.2 fun s hs => ?_
      cases s with
      | unnamed => exact absurd hs hunnamed
      | loneBackslash => exact absurd hs hlone
      | _ => rfl
    rw [hall] at hnested
    obtain ⟨body, hbody, -⟩ := readable (.ofOffset src 0) .text
      ⟨plain, by simp, _, hnested, (List.append_nil _).symm⟩ .document
    exact ⟨_, document_of_derives hbody⟩

/-- Scripts, environments and a brace in a comment, and a name that is none. -/
theorem Parse.accepts_iff_nested_scripts :
    (∃ tree, Parse.document .empty (bytes "\\[a^ \x7bb_\\c\x7d% \x7d\n\\]\\begin\x7bx\x7d^*\\end\x7bx\x7d") =
      .ok tree) ∧
    ¬∃ tree, Parse.document .empty (bytes "\\begin\x7ba b\x7d\\end\x7ba b\x7d") = .ok tree := by
  rw [Parse.accepts_iff_nested (by decide), Parse.accepts_iff_nested (by decide)]
  have hsignals : Signal.all (bytes "\\[a^ \x7bb_\\c\x7d% \x7d\n\\]\\begin\x7bx\x7d^*\\end\x7bx\x7d") =
      [.opens .bracket, .opens .brace, .closes .brace, .closes .bracket, .opens (.environment (bytes "x")),
        .closes (.environment (bytes "x"))] := by
    decide +kernel
  have hnested : Nested [.opens .bracket, .opens .brace, .closes .brace, .closes .bracket,
      .opens (.environment (bytes "x")), .closes (.environment (bytes "x"))] :=
    .pair (.pair .nil .nil) (.pair .nil .nil)
  rw [hsignals]
  exact ⟨⟨by decide, by decide, hnested⟩, fun h => h.2.1 (by decide +kernel)⟩

end TexTidy
