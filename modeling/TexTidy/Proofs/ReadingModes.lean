import TexTidy.Proofs.Tiling
import TexTidy.Proofs.Complete

/-!
# TexTidy.Proofs.ReadingModes

The modes in which the nodes of a document are read. A tree does not keep them, so that a derivation is given a
log: an entry for every node of a sequence, with the offset where the node starts and the mode in which the
sequence is read. `Logs r j log` has the rules of `Derives`, and each of them says what it adds to the log. An
argument without braces counts as a sequence of one node.

* Whatever can be derived has a log (`Derives.exists_logs`), and a log belongs to a derivation (`Logs.derives`).
* The entries of a log are in the order of their offsets (`Logs.ordered`), so that no offset has two modes and a log
  is a function from offsets to modes (`exists_readIn`).
-/

namespace TexTidy

/-- The parts of a node. -/
def Node.parts : Node → List Node
  | .leaf _ _ _ => []
  | .branch _ _ _ args content => args ++ content

namespace Parse

/-- Where nodes of sequences start, and the modes in which they are read. -/
abbrev Log := List (Nat × Mode)

/-- The ways to read, with what is read in which mode. -/
inductive Logs (r : Registry) : Judgement → Log → Prop
  | stop {mode closer c t d} (token : c.token = .ok (t, d))
      (closed : closer.pass t.kind = none ∨ t.kind = .endOfInput) :
      Logs r (.sequence mode closer c ⟨[], t, c, d⟩) []
  | next {mode closer later c t d n e tail own others} (token : c.token = .ok (t, d))
      (pass : closer.pass t.kind = some later) (more : t.kind ≠ .endOfInput)
      (head : Logs r (.item mode c n e) own) (rest : Logs r (.sequence mode later e tail) others) :
      Logs r (.sequence mode closer c { tail with nodes := link n tail.nodes }) ((c.pos, mode) :: (own ++ others))
  /-- A node without parts. -/
  | atom {mode c n d} (whole : Derives r (.item mode c n d)) (bare : n.parts = []) : Logs r (.item mode c n d) []
  | script {c t d char args e log} (token : c.token = .ok (t, d)) (kind : t.kind = .symbol char)
      (sign : char = Byte.caret ∨ char = Byte.underscore)
      (taken : Logs r (.arguments .math [.mandatory] d args e) log) :
      Logs r (.item .math c (.branch ⟨c.pos, e.pos⟩ {} (.command [] [char]) args []) e) log
  | group {mode c t d body log} (token : c.token = .ok (t, d)) (kind : t.kind = .openBrace)
      (content : Logs r (.sequence mode .brace d body) log) (closed : body.isOpen = false) :
      Logs r (.item mode c (.branch ⟨c.pos, body.cursor.pos⟩ {} .group [] body.nodes) body.cursor) log
  | formula {mode c t d closer shape body log} (token : c.token = .ok (t, d))
      (kind : formula? t.kind = some (closer, shape)) (content : Logs r (.sequence .math closer d body) log)
      (closed : body.isOpen = false) :
      Logs r (.item mode c (.branch ⟨c.pos, body.cursor.pos⟩ {} shape [] body.nodes) body.cursor) log
  | dollar {mode c t d body stop log} (token : c.token = .ok (t, d)) (kind : t.kind = .dollar)
      (content : Logs r (.sequence .math .dollar d body) log) (closed : body.isOpen = false)
      (half : stop = if body.last.kind = .dollars then body.before.advance 1 else body.cursor) :
      Logs r (.item mode c
        (.branch ⟨c.pos, stop.pos⟩ {} (.inlineMath [Byte.dollar] [Byte.dollar]) [] body.nodes) stop) log
  | environment {mode c t d name e args f body stop own others} (token : c.token = .ok (t, d))
      (kind : t.kind = .command (bytes "begin")) (opening : d.environmentName = .ok (name, e))
      (nodes : (environmentEntry r name).spec.verbatim = false)
      (taken : Logs r (.arguments mode (environmentEntry r name).args e args f) own)
      (content : Logs r
        (.sequence (if (environmentEntry r name).spec.math then .math else mode) .environment f body) others)
      (closed : body.isOpen = false) (closing : body.cursor.environmentName = .ok (name, stop)) :
      Logs r (.item mode c (.branch ⟨c.pos, stop.pos⟩ {}
        (environmentShape (environmentEntry r name).spec name) args body.nodes) stop) (own ++ others)
  | verbatim {mode c t d name e args f body stop log} (token : c.token = .ok (t, d))
      (kind : t.kind = .command (bytes "begin")) (opening : d.environmentName = .ok (name, e))
      (raw : (environmentEntry r name).spec.verbatim = true)
      (taken : Logs r (.arguments mode (environmentEntry r name).args e args f) log)
      (content : f.verbatimBody name = some (body, stop)) :
      Logs r (.item mode c (.branch ⟨c.pos, stop.pos⟩ {} (.verbatim name body) args []) stop) log
  | command {mode c t d name args e log} (token : c.token = .ok (t, d))
      (kind : t.kind = .command name) (known : r.isVerb name = false) (free : isDelimiter name = false)
      (taken : Logs r (.arguments (commandMode r name mode) (commandArgs r name) d args e) log) :
      Logs r (.item mode c (.branch ⟨c.pos, e.pos⟩ {} (.command escape name) args []) e) log
  | done {mode c} : Logs r (.arguments mode [] c [] c) []
  | absent {mode kind kinds c args d log} (missing : isAbsent r c kind = true)
      (others : Logs r (.arguments mode kinds c args d) log) : Logs r (.arguments mode (kind :: kinds) c args d) log
  | star {mode kinds c args d log} (sign : c.peek? = some Byte.star)
      (others : Logs r (.arguments mode kinds (c.advance 1) args d) log) :
      Logs r (.arguments mode (.star :: kinds) c
        (.branch ⟨c.pos, (c.advance 1).pos⟩ {} (.argument [] [] []) []
          [.leaf ⟨c.pos, (c.advance 1).pos⟩ {} (.text [Byte.star])] :: args) d) ((c.pos, mode) :: log)
  | optional {mode kinds c body args d own log} (sign : c.peek? = some Byte.openBracket)
      (content : Logs r (.sequence mode (.bracket 0) (c.advance 1) body) own) (closed : body.isOpen = false)
      (others : Logs r (.arguments mode kinds body.cursor args d) log) :
      Logs r (.arguments mode (.optional :: kinds) c
        (.branch ⟨c.pos, body.cursor.pos⟩ {} (.argument [] ArgKind.optional.opening ArgKind.optional.closing) []
          body.nodes :: args) d) (own ++ log)
  | braced {mode kinds c body args d own log} (sign : c.skipSpace.2.peek? = some Byte.openBrace)
      (content : Logs r (.sequence mode .brace (c.skipSpace.2.advance 1) body) own) (closed : body.isOpen = false)
      (others : Logs r (.arguments mode kinds body.cursor args d) log) :
      Logs r (.arguments mode (.mandatory :: kinds) c
        (.branch ⟨c.pos, body.cursor.pos⟩ {}
          (.argument c.skipSpace.1 ArgKind.mandatory.opening ArgKind.mandatory.closing) []
          body.nodes :: args) d) (own ++ log)
  /-- A single command or character. -/
  | bare {mode kinds c n stop args d log}
      (whole : Derives r (.arguments mode (.mandatory :: kinds) c
        (bareArgument c c.skipSpace.1 n stop.pos :: args) d))
      (start : n.span = ⟨c.skipSpace.2.pos, stop.pos⟩) (past : c.skipSpace.2.pos < stop.pos) (bare : n.parts = [])
      (others : Logs r (.arguments mode kinds stop args d) log) :
      Logs r (.arguments mode (.mandatory :: kinds) c
        (bareArgument c c.skipSpace.1 n stop.pos :: args) d) ((c.skipSpace.2.pos, mode) :: log)

variable {r : Registry} {j : Judgement} {log : Log}

/-- A log belongs to a derivation. -/
theorem Logs.derives (h : Logs r j log) : Derives r j := by
  induction h with
  | stop token closed => exact .stop token closed
  | next token pass more head rest ihHead ihRest => exact .next token pass more ihHead ihRest
  | atom whole bare => exact whole
  | script token kind sign taken ih => exact .script token kind sign ih
  | group token kind content closed ih => exact .group token kind ih closed
  | formula token kind content closed ih => exact .formula token kind ih closed
  | dollar token kind content closed half ih => exact .dollar token kind ih closed half
  | environment token kind opening nodes taken content closed closing ihArgs ihBody =>
    exact .environment token kind opening nodes ihArgs ihBody closed closing
  | verbatim token kind opening raw taken content ih => exact .verbatim token kind opening raw ih content
  | command token kind known free taken ih => exact .command token kind known free ih
  | done => exact .done
  | absent missing others ih => exact .absent missing ih
  | star sign others ih => exact .star sign ih
  | optional sign content closed others ihContent ihOthers => exact .optional sign ihContent closed ihOthers
  | braced sign content closed others ihContent ihOthers => exact .braced sign ihContent closed ihOthers
  | bare whole start past bare others ih => exact whole

/-- Whatever can be derived has a log. -/
theorem Derives.exists_logs (h : Derives r j) : ∃ log, Logs r j log := by
  induction h with
  | stop token closed => exact ⟨_, .stop token closed⟩
  | next token pass more head rest ihHead ihRest =>
    obtain ⟨own, hown⟩ := ihHead
    obtain ⟨others, hothers⟩ := ihRest
    exact ⟨_, .next token pass more hown hothers⟩
  | leaf token plain => exact ⟨_, .atom (.leaf token plain) rfl⟩
  | script token kind sign taken ih => exact ih.imp fun log h => .script token kind sign h
  | group token kind content closed ih => exact ih.imp fun log h => .group token kind h closed
  | formula token kind content closed ih => exact ih.imp fun log h => .formula token kind h closed
  | dollar token kind content closed half ih => exact ih.imp fun log h => .dollar token kind h closed half
  | emptyDollars token kind content unclosed =>
    exact ⟨_, .atom (.emptyDollars token kind content unclosed) rfl⟩
  | environment token kind opening nodes taken content closed closing ihArgs ihBody =>
    obtain ⟨own, hown⟩ := ihArgs
    obtain ⟨others, hothers⟩ := ihBody
    exact ⟨_, .environment token kind opening nodes hown hothers closed closing⟩
  | verbatim token kind opening raw taken content ih =>
    exact ih.imp fun log h => .verbatim token kind opening raw h content
  | verb token kind known free starred star_eq content =>
    exact ⟨_, .atom (.verb token kind known free starred star_eq content) rfl⟩
  | command token kind known free taken ih => exact ih.imp fun log h => .command token kind known free h
  | done => exact ⟨_, .done⟩
  | absent missing others ih => exact ih.imp fun log h => .absent missing h
  | star sign others ih =>
    obtain ⟨log, hlog⟩ := ih
    exact ⟨_, .star sign hlog⟩
  | optional sign content closed others ihContent ihOthers =>
    obtain ⟨own, hown⟩ := ihContent
    obtain ⟨log, hlog⟩ := ihOthers
    exact ⟨_, .optional sign hown closed hlog⟩
  | braced sign content closed others ihContent ihOthers =>
    obtain ⟨own, hown⟩ := ihContent
    obtain ⟨log, hlog⟩ := ihOthers
    exact ⟨_, .braced sign hown closed hlog⟩
  | bareCommand token kind known free others ih =>
    obtain ⟨log, hlog⟩ := ih
    have hpast := Cursor.lt_of_token token (by simp [kind])
    exact ⟨_, .bare (.bareCommand token kind known free others) rfl hpast rfl hlog⟩
  | bareCharacter sign inert content others ih =>
    obtain ⟨log, hlog⟩ := ih
    have hpast := Cursor.lt_of_character sign
    rw [content] at hpast
    exact ⟨_, .bare (.bareCharacter sign inert content others) rfl hpast rfl hlog⟩

/-! ## logs are in order -/

/-- The offsets of a log grow, and lie between two bounds. -/
def Log.Within (a b : Nat) (log : Log) : Prop :=
  log.Pairwise (fun x y => x.1 < y.1) ∧ ∀ x ∈ log, a ≤ x.1 ∧ x.1 < b

namespace Log.Within

variable {a b m : Nat} {ks ls : Log}

theorem nil (a b : Nat) : Log.Within a b [] :=
  ⟨.nil, by simp⟩

theorem mono {a' b' : Nat} (h : Log.Within a b ls) (ha : a' ≤ a) (hb : b ≤ b') : Log.Within a' b' ls := by
  refine ⟨h.1, fun x hx => ?_⟩
  have := h.2 x hx
  omega

theorem append (hks : Log.Within a m ks) (hls : Log.Within m b ls) (ha : a ≤ m) (hb : m ≤ b) :
    Log.Within a b (ks ++ ls) := by
  refine ⟨List.pairwise_append.2 ⟨hks.1, hls.1, fun x hx y hy => ?_⟩, fun x hx => ?_⟩
  · exact Nat.lt_of_lt_of_le (hks.2 x hx).2 (hls.2 y hy).1
  · rcases List.mem_append.1 hx with hx | hx
    · exact ⟨(hks.2 x hx).1, Nat.lt_of_lt_of_le (hks.2 x hx).2 hb⟩
    · exact ⟨Nat.le_trans ha (hls.2 x hx).1, (hls.2 x hx).2⟩

theorem cons (mode : Mode) (h : Log.Within (a + 1) b ls) (hb : a < b) : Log.Within a b ((a, mode) :: ls) := by
  refine ⟨List.pairwise_cons.2 ⟨fun x hx => (h.2 x hx).1, h.1⟩, fun x hx => ?_⟩
  rcases List.mem_cons.1 hx with rfl | hx
  · exact ⟨Nat.le_refl a, hb⟩
  · exact ⟨Nat.le_of_succ_le (h.2 x hx).1, (h.2 x hx).2⟩

end Log.Within

/-- What a log of a judgement lies between. -/
def Judgement.Orders (log : Log) : Judgement → Prop
  | .sequence _ _ c s => Log.Within c.pos s.before.pos log
  | .item _ c _ d => Log.Within (c.pos + 1) d.pos log
  | .arguments _ _ c _ d => Log.Within c.pos d.pos log

/-- What is closed ends behind its content. -/
theorem Derives.before_le {mode : Mode} {closer : Closer} {c : Cursor} {body : Sequence}
    (h : Derives r (.sequence mode closer c body)) : c.pos ≤ body.before.pos ∧ body.before.pos ≤ body.cursor.pos := by
  have hnodes := h.moves.1.pos
  have hlast := h.moves.2.1.pos
  omega

/-- **The entries of a log are in the order of their offsets.** -/
theorem Logs.ordered (h : Logs r j log) : j.Orders log := by
  induction h with
  | stop token closed => exact .nil _ _
  | next token pass more head rest ihHead ihRest =>
    have hhead := head.derives.moves.1.lt head.derives.raw_ne_nil
    have htail := rest.derives.before_le.1
    exact .cons _ (ihHead.append ihRest hhead htail) (Nat.lt_of_lt_of_le hhead htail)
  | atom whole bare => exact .nil _ _
  | script token kind sign taken ih => exact ih.mono (Cursor.lt_of_token token (by simp [kind])) (Nat.le_refl _)
  | group token kind content closed ih =>
    exact ih.mono (Cursor.lt_of_token token (by simp [kind])) content.derives.before_le.2
  | formula token kind content closed ih =>
    refine ih.mono (Cursor.lt_of_token token fun hend => ?_) content.derives.before_le.2
    rw [hend] at kind
    cases kind
  | dollar token kind content closed half ih =>
    have hclosing := (content.derives.half_reads closed).pos
    rw [← half] at hclosing
    exact ih.mono (Cursor.lt_of_token token (by simp [kind])) (by omega)
  | environment token kind opening nodes taken content closed closing ihArgs ihBody =>
    have hbegin := Cursor.lt_of_token token (by simp [kind])
    have hname := (Cursor.environmentName_reads opening).pos
    have hargs := taken.derives.moves.pos
    have hbody := content.derives.before_le
    have hend := (Cursor.environmentName_reads closing).pos
    exact (ihArgs.append ihBody (by omega) hbody.1).mono (by omega) (by omega)
  | verbatim token kind opening raw taken content ih =>
    have hbegin := Cursor.lt_of_token token (by simp [kind])
    have hname := (Cursor.environmentName_reads opening).pos
    have hbody := (Cursor.verbatimBody_reads content).pos
    exact ih.mono (by omega) (by omega)
  | command token kind known free taken ih =>
    exact ih.mono (Cursor.lt_of_token token (by simp [kind])) (Nat.le_refl _)
  | done => exact .nil _ _
  | absent missing others ih => exact ih
  | star sign others ih =>
    have hsign := (Cursor.peek_reads sign).pos
    have hothers := others.derives.moves.pos
    exact .cons _ (ih.mono (Nat.le_of_eq hsign.symm) (Nat.le_refl _)) (by simp at hsign; omega)
  | optional sign content closed others ihContent ihOthers =>
    have hsign := (Cursor.peek_reads sign).pos
    have hbody := content.derives.before_le
    have hothers := others.derives.moves.pos
    exact (ihContent.mono (by omega) (Nat.le_refl _)).append (ihOthers.mono hbody.2 (Nat.le_refl _)) (by omega)
      (by omega)
  | @braced _ _ c _ _ _ _ _ sign content closed others ihContent ihOthers =>
    have hspace := (Cursor.skipSpace_reads c).pos
    have hsign := (Cursor.peek_reads sign).pos
    have hbody := content.derives.before_le
    have hothers := others.derives.moves.pos
    exact (ihContent.mono (by omega) (Nat.le_refl _)).append (ihOthers.mono hbody.2 (Nat.le_refl _)) (by omega)
      (by omega)
  | @bare _ _ c _ _ _ _ _ whole start past bare others ih =>
    have hspace := (Cursor.skipSpace_reads c).pos
    have hothers := others.derives.moves.pos
    exact (Log.Within.cons _ (ih.mono past (Nat.le_refl _)) (by omega)).mono (by omega) (Nat.le_refl _)

/-! ## modes as a function -/

/-- No offset of a log has two modes. -/
theorem Log.Within.lookup_eq_some {a b p : Nat} {mode : Mode} (h : Log.Within a b log) (hmem : (p, mode) ∈ log) :
    log.lookup p = some mode := by
  obtain ⟨hpairs, -⟩ := h
  clear a b
  induction log with
  | nil => cases hmem
  | cons x log ih =>
    obtain ⟨hx, hpairs⟩ := List.pairwise_cons.1 hpairs
    rcases List.mem_cons.1 hmem with rfl | hmem
    · simp
    · have hne : (p == x.1) = false := by simpa using Nat.ne_of_gt (hx _ hmem)
      rw [List.lookup_cons, hne]
      exact ih hmem hpairs

/-- A document is read with its nodes in the given modes, by their offsets. -/
def ReadIn (r : Registry) (modes : Nat → Mode) (src : Bytes) (tree : Node) : Prop :=
  ∃ body log, Logs r (.sequence .text .document (.ofOffset src 0) body) log ∧
    tree = .branch ⟨0, src.length⟩ {} .document [] body.nodes ∧ ∀ p mode, (p, mode) ∈ log → modes p = mode

/-- **Every document is read in some modes.** -/
theorem exists_readIn {src : Bytes} {tree : Node} (h : document r src = .ok tree) :
    ∃ modes, ReadIn r modes src tree := by
  obtain ⟨body, hbody, htree⟩ := derives_of_document h
  obtain ⟨log, hlog⟩ := hbody.exists_logs
  refine ⟨fun p => (log.lookup p).getD .text, body, log, hlog, htree, fun p mode hmem => ?_⟩
  have hlookup := hlog.ordered.lookup_eq_some hmem
  simp [hlookup]

end Parse

end TexTidy
