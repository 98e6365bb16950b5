import TexTidy.Proofs.Lockstep

/-!
# TexTidy.Proofs.Termination

Reading always ends. The parser goes back in four places: behind a double dollar sign that is never closed, in the
middle of one that closes a formula, and in front of a mandatory argument that is not there, with or without space
before it. None of them makes it read forever, because whatever a token makes it read begins behind that token.

Two runs with one registry and different numbers of steps concur (`content_concur`). So the number does not matter once
it is large enough (`content_eq_sequence`), and `sequence` obeys the recursion that has no such number
(`sequence_eq_round`).
-/

namespace TexTidy

namespace Parse

section

variable {r : Registry} {read read' : Reader} {mode : Mode} {closer : Closer} {c d : Cursor}

/-- The node that a token begins does not depend on what the reader does elsewhere than behind the token. -/
theorem item_concur {t : Token} (token : c.token = .ok (t, d)) (more : t.kind ≠ .endOfInput)
    (hsound : read.Sound r) (hread : read.ConcurAfter c read') :
    Concur c (item r read mode t d) (item r read' mode t d) :=
  item_concur_of_agreeOn (.refl _ r) token more hsound hread

theorem sequence_sound (r : Registry) : Reader.Sound r (sequence r) :=
  ⟨derives_of_content, fun mode closer c => content_onward r _ mode closer c⟩

/-- The number of steps that `sequence` starts with is one that is enough. -/
theorem content_eq_sequence {steps : Nat} (h : c.rest.length < steps) :
    content r steps mode closer c = sequence r mode closer c :=
  (content_concur (.refl _ r) mode closer h (Nat.lt_succ_self _)).same

/-- What is wrong with a sequence is wrong at its start or later. -/
theorem sequence_concur (r : Registry) (mode : Mode) (closer : Closer) (c : Cursor) :
    Concur c (sequence r mode closer c) (sequence r mode closer c) :=
  sequence_concur_of_agreeOn (.refl _ r) mode closer

/-- `sequence` concurs with every reader that reads as it does at later places. -/
theorem sequence_concurAfter (h : ∀ mode closer d, c.Precedes d → read mode closer d = sequence r mode closer d) :
    (sequence r).ConcurAfter c read := by
  intro mode closer d hd
  rw [h mode closer d hd]
  exact sequence_concur r mode closer d

/-- **A sequence is read by rounds**, each of which hands `sequence` itself to what it meets. -/
theorem sequence_eq_round (r : Registry) (mode : Mode) (closer : Closer) (c : Cursor) :
    sequence r mode closer c = round r (sequence r) mode closer c := by
  have hround : (sequence r).ConcurAfter c (content r c.rest.length) :=
    sequence_concurAfter fun mode closer d hd => content_eq_sequence hd.length_lt
  exact (round_concur (.refl _ r) (sequence_sound r) hround).same.symm

end

/-! ## every source -/

/-- **Reading always ends.** Every source is a document or has an error, and the error is never that there were too few
    steps. A node that was read from a token ends behind the start of the token and within the source, and what the
    token makes the parser read begins behind that start: the node is the same for every reader that reads as
    `sequence` does at later places. Hence `sequence` obeys the recursion without a bound on the steps, and any bound
    that exceeds the number of bytes left gives the same result. -/
theorem reading_ends (r : Registry) (src : Bytes) :
    ((∃ tree, document r src = .ok tree) ∨ ∃ e, document r src = .error e ∧ e.cause ≠ .tooDeep) ∧
    (∀ (c next : Cursor) (t : Token) (mode : Mode), c.At src → c.token = .ok (t, next) → t.kind ≠ .endOfInput →
      (∀ n d, item r (sequence r) mode t next = .ok (n, d) → t.span.start < d.pos ∧ d.pos ≤ src.length) ∧
      ∀ read : Reader,
        (∀ mode closer d, d.At src → t.span.start < d.pos → read mode closer d = sequence r mode closer d) →
        item r read mode t next = item r (sequence r) mode t next) ∧
    (∀ mode closer c, sequence r mode closer c = round r (sequence r) mode closer c) ∧
    ∀ (c : Cursor) (mode : Mode) (closer : Closer) (steps : Nat), c.At src → src.length - c.pos < steps →
      content r steps mode closer c = sequence r mode closer c := by
  refine ⟨?_, ?_, sequence_eq_round r, ?_⟩
  · have hconcur := sequence_concur r .text .document (.ofOffset src 0)
    unfold document documentFrom
    cases h : sequence r .text .document (.ofOffset src 0) with
    | ok body => exact .inl ⟨_, rfl⟩
    | error f => exact .inr ⟨_, rfl, (hconcur.blame f h).2⟩
  · intro c next t mode hc token more
    have hstart : t.span.start = c.pos := by rw [(Cursor.token_reads token).2]
    rw [hstart]
    refine ⟨fun n d h => ?_, fun read hread => ?_⟩
    · have hd := precedes_of_item (sequence_sound r) token more h
      exact ⟨hd.pos_lt, (hd.at_source hc).bound⟩
    · have hlater : (sequence r).ConcurAfter c read :=
        sequence_concurAfter fun mode closer d hd => hread mode closer d (hd.at_source hc) hd.pos_lt
      exact (item_concur token more (sequence_sound r) hlater).same.symm
  · intro c mode closer steps hc hsteps
    have hlength := hc.length
    exact content_eq_sequence (by omega)

/-- A double dollar sign that is never closed: the parser reads to the end, goes back, and is behind the sign. -/
theorem reading_ends_dollars :
    ∃ t next n d, (Cursor.ofOffset (bytes "$$a$b$") 0).token = .ok (t, next) ∧
      item .builtin (sequence .builtin) .text t next = .ok (n, d) ∧ t.span.start < d.pos ∧ d.pos ≤ 6 ∧
      content .builtin 7 .text .document (.ofOffset (bytes "$$a$b$") 0) =
        sequence .builtin .text .document (.ofOffset (bytes "$$a$b$") 0) := by
  have hstart := Cursor.at_start (bytes "$$a$b$")
  obtain ⟨⟨t, next⟩, token⟩ := exists_ok_of_isOk (x := (Cursor.ofOffset (bytes "$$a$b$") 0).token) (by decide)
  have hkind : t.kind = .dollars := by
    cases token
    rfl
  obtain ⟨⟨n, d⟩, hitem⟩ := exists_ok_of_isOk (x := item .builtin (sequence .builtin) .text t next) (by
    cases token
    decide +kernel)
  obtain ⟨-, hnodes, -, hsteps⟩ := reading_ends .builtin (bytes "$$a$b$")
  obtain ⟨hbehind, hbound⟩ := (hnodes _ next t .text hstart token (by simp [hkind])).1 n d hitem
  exact ⟨t, next, n, d, token, hitem, hbehind, hbound, hsteps _ _ _ 7 hstart (by decide)⟩

end Parse

end TexTidy
