import TexTidy.Proofs.Termination

/-!
# TexTidy.Proofs.DoubleDollar

What becomes of a double dollar sign. The parser reads on as if a displayed formula began there, and if that fails with
a fault at the sign itself, it takes the sign for an empty formula instead. It knows the fault that it may replace by
its offset only, so this is right because every fault of the content lies behind the sign (`offset_of_sequence`).

What follows the sign has then one of three outcomes, and each of them is found again in the node
(`dollars_of_fault`, `dollars_of_open`, `dollars_of_closed`).
-/

namespace TexTidy

namespace Fault

/-- Placing a fault in its source moves it to the end of the source at most. -/
theorem lt_locate_offset {src : Bytes} {f : Fault} {pos : Nat} (hpos : pos < src.length) (hf : pos < f.offset) :
    pos < (f.locate src).offset :=
  Nat.lt_min.2 ⟨hf, hpos⟩

end Fault

namespace Parse

variable {r : Registry} {src : Bytes} {c d next : Cursor} {t : Token} {mode : Mode} {closer : Closer} {f : Fault}
  {body : Sequence}

/-! ## where faults are -/

/-- **A fault of what is read at a later place is about a later place.** -/
theorem offset_of_sequence {pos : Nat} (hpos : pos < c.pos) (h : sequence r mode closer c = .error f) :
    pos < f.offset := by
  have honward := (sequence_sound r).onward mode closer c
  rw [h] at honward
  exact Nat.lt_of_lt_of_le hpos honward

/-- The same of a displayed formula, whose own fault is about the sign that opens it. -/
theorem offset_of_displayDollars {pos start : Nat} (hstart : pos < start) (hd : pos < d.pos)
    (h : displayDollars (sequence r) start d = .error f) : pos < f.offset := by
  have honward : Onward (fun p => p.2.pos) (pos + 1) (displayDollars (sequence r) start d) :=
    formula_onward (sequence_sound r).onward hstart hd
  rw [h] at honward
  exact honward

/-! ## the three outcomes -/

/-- What follows the sign is at fault, and so is the sign. -/
theorem dollars_of_fault (hd : c.pos < d.pos) (h : sequence r .math .dollars d = .error f) :
    dollars (sequence r) c.pos d = .error f := by
  have hdisplay : displayDollars (sequence r) c.pos d = .error f := by
    rw [displayDollars, h]
    rfl
  have hoffset : f.offset ≠ c.pos := Nat.ne_of_gt (offset_of_sequence hd h)
  simp only [dollars, hdisplay, if_neg hoffset]

/-- What follows the sign goes on to the end of the source, and the sign is an empty formula. -/
theorem dollars_of_open (h : sequence r .math .dollars d = .ok body) (hopen : body.isOpen = true) :
    dollars (sequence r) c.pos d =
      .ok (.branch ⟨c.pos, d.pos⟩ {} (.inlineMath [Byte.dollar] [Byte.dollar]) [] [], d) := by
  have hdisplay : displayDollars (sequence r) c.pos d = .error ⟨c.pos, .displayUnclosed, body.cursor.pos⟩ := by
    rw [displayDollars, h]
    simp only [bind, Except.bind, hopen]
    rfl
  simp only [dollars, hdisplay, if_true]

/-- What follows the sign is closed by another one, and the two hold a displayed formula. -/
theorem dollars_of_closed (h : sequence r .math .dollars d = .ok body) (hclosed : body.isOpen = false) :
    dollars (sequence r) c.pos d = .ok (.branch ⟨c.pos, body.cursor.pos⟩ {}
      (.displayMath (bytes "$$") (bytes "$$")) [] body.nodes, body.cursor) := by
  have hdisplay : displayDollars (sequence r) c.pos d = .ok (.branch ⟨c.pos, body.cursor.pos⟩ {}
      (.displayMath (bytes "$$") (bytes "$$")) [] body.nodes, body.cursor) :=
    bind_closed h hclosed
  simp only [dollars, hdisplay]

/-- A sequence that is left open was read up to the end of the source. -/
theorem pos_of_open (hd : d.At src) (h : sequence r mode closer d = .ok body) (hopen : body.isOpen = true) :
    body.cursor.pos = src.length := by
  have hbody := (sequence_sound r).derives h
  have hbefore : body.before.rest = [] :=
    Cursor.rest_of_endOfInput hbody.stops (by simpa [Sequence.isOpen] using hopen)
  have hlast := hbody.moves.2.1.length
  have hcursor := (hbody.sequence_at hd).length
  simp only [hbefore, List.length_nil] at hlast
  omega

/-- What ends a sequence that waits for a double dollar sign. -/
theorem last_of_dollars (h : sequence r .math .dollars d = .ok body) :
    body.last.kind = if body.isOpen then .endOfInput else .dollars := by
  cases hopen : body.isOpen with
  | true => simpa [Sequence.isOpen] using hopen
  | false => exact ((sequence_sound r).derives h).ends hopen

/-! ## every double dollar sign -/

/-- **Only its own fault turns a double dollar sign into an empty formula.** Every error that is raised while what
    follows the sign is read lies behind the sign, those of formulas inside that are replaced in turn included. So the
    sign is an empty formula, behind which reading goes on, exactly if what follows it can be read up to the end of the
    source and no double dollar sign closes it on its own level. If one does, they hold a displayed formula, and every
    error in what follows is passed on as it is. -/
theorem dollars_replaces_own_fault (r : Registry) (mode : Mode) (hc : c.At src) (token : c.token = .ok (t, next))
    (kind : t.kind = .dollars) :
    (∀ (d : Cursor) mode closer f, d.At src → t.span.start < d.pos → sequence r mode closer d = .error f →
      t.span.start < (f.locate src).offset) ∧
    (∀ (d e : Cursor) (u : Token) f, d.At src → t.span.start < d.pos → d.token = .ok (u, e) → u.kind = .dollars →
      displayDollars (sequence r) u.span.start e = .error f → t.span.start < (f.locate src).offset) ∧
    (∀ f, item r (sequence r) mode t next = .error f ↔ sequence r .math .dollars next = .error f) ∧
    (item r (sequence r) mode t next =
        .ok (.branch t.span {} (.inlineMath [Byte.dollar] [Byte.dollar]) [] [], next) ↔
      ∃ body, sequence r .math .dollars next = .ok body ∧ body.last.kind = .endOfInput ∧
        body.cursor.pos = src.length) ∧
    ∀ body, sequence r .math .dollars next = .ok body → body.last.kind = .dollars →
      item r (sequence r) mode t next = .ok (.branch ⟨t.span.start, body.cursor.pos⟩ {}
        (.displayMath (bytes "$$") (bytes "$$")) [] body.nodes, body.cursor) := by
  have hnext := Cursor.precedes_of_token token (by simp [kind])
  have hspan := (Cursor.token_reads token).2
  have hsource : c.pos < src.length := Nat.lt_of_lt_of_le hnext.pos_lt (hnext.at_source hc).bound
  have hitem : item r (sequence r) mode t next = dollars (sequence r) c.pos next := by
    simp only [item, kind, hspan]
  simp only [hitem, hspan]
  refine ⟨fun d mode closer f _ hd h => ?_, fun d e u f _ hd htoken hkind h => ?_, fun f => ?_, ?_, ?_⟩
  · exact Fault.lt_locate_offset hsource (offset_of_sequence hd h)
  · rw [(Cursor.token_reads htoken).2] at h
    have he := Cursor.precedes_of_token htoken (by simp [hkind])
    exact Fault.lt_locate_offset hsource (offset_of_displayDollars hd (hd.trans he.pos_lt) h)
  · cases h : sequence r .math .dollars next with
    | error g => rw [dollars_of_fault hnext.pos_lt h]; simp
    | ok body =>
      cases hopen : body.isOpen with
      | true => rw [dollars_of_open h hopen]; simp
      | false => rw [dollars_of_closed h hopen]; simp
  · cases h : sequence r .math .dollars next with
    | error g => rw [dollars_of_fault hnext.pos_lt h]; simp
    | ok body =>
      have hlast := last_of_dollars h
      cases hopen : body.isOpen with
      | true =>
        rw [hopen] at hlast
        rw [dollars_of_open h hopen]
        simp [hlast, pos_of_open (hnext.at_source hc) h hopen]
      | false =>
        rw [hopen] at hlast
        rw [dollars_of_closed h hopen]
        simp [hlast]
  · intro body h hlast
    exact dollars_of_closed h (by simp [Sequence.isOpen, hlast])

/-- A group that is never closed, with a double dollar sign in it that is an empty formula: the error is that of the
    group. Without the group the first sign is an empty formula, too. -/
theorem dollars_replaces_own_fault_group :
    (∃ t next f, (Cursor.ofOffset (bytes "$$ \x7b$$") 0).token = .ok (t, next) ∧
      item .builtin (sequence .builtin) .text t next = .error f ∧ f.cause = .groupUnclosed ∧
      0 < (f.locate (bytes "$$ \x7b$$")).offset) ∧
    ∃ t next, (Cursor.ofOffset (bytes "$$ a") 0).token = .ok (t, next) ∧
      item .builtin (sequence .builtin) .text t next =
        .ok (.branch ⟨0, 2⟩ {} (.inlineMath [Byte.dollar] [Byte.dollar]) [] [], next) := by
  have hgroup := dollars_replaces_own_fault .builtin .text (Cursor.at_start (bytes "$$ \x7b$$")) rfl rfl
  have hplain := dollars_replaces_own_fault .builtin .text (Cursor.at_start (bytes "$$ a")) rfl rfl
  have hbehind : (Cursor.ofOffset (bytes "$$ \x7b$$") 2).At (bytes "$$ \x7b$$") := ⟨rfl, by decide⟩
  have herror : sequence .builtin .math .dollars (.ofOffset (bytes "$$ \x7b$$") 2) =
      .error ⟨3, .groupUnclosed, 6⟩ := rfl
  refine ⟨⟨_, _, _, rfl, (hgroup.2.2.1 _).2 herror, rfl, ?_⟩, _, _, rfl, ?_⟩
  · exact hgroup.1 _ _ _ _ hbehind (by decide) herror
  · exact hplain.2.2.2.1.2 ⟨_, rfl, rfl, rfl⟩

end Parse

end TexTidy
