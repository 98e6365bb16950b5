import TexTidy.Parse
import TexTidy.Proofs.Reading

/-!
# TexTidy.Proofs.Forward

The parser does not go back. What is read from a place on ends at that place or later, and a fault in it is about that
place or a later one (`content_onward`). That is why a double dollar sign knows the fault that is its own by the offset.
-/

namespace TexTidy.Parse

variable {α β : Type} {place : α → Nat} {place' : β → Nat} {pos : Nat} {r : Registry} {read : Reader} {mode : Mode}
  {c d : Cursor}

/-- A run comes to `pos` or to a later place, with its result as well as with its fault. -/
def Onward (place : α → Nat) (pos : Nat) : Except Fault α → Prop
  | .ok a => pos ≤ place a
  | .error f => pos ≤ f.offset

/-- The first of the places that a sequence ends at. -/
def Sequence.first (s : Sequence) : Nat :=
  min s.last.span.start (min s.before.pos s.cursor.pos)

theorem Sequence.first_le_cursor (s : Sequence) : s.first ≤ s.cursor.pos :=
  Nat.le_trans (Nat.min_le_right _ _) (Nat.min_le_right _ _)

theorem Sequence.first_le_before (s : Sequence) : s.first ≤ s.before.pos :=
  Nat.le_trans (Nat.min_le_right _ _) (Nat.min_le_left _ _)

theorem Sequence.first_le_last (s : Sequence) : s.first ≤ s.last.span.start :=
  Nat.min_le_left _ _

/-- A reader does not go back. -/
def Reader.Onward (read : Reader) : Prop :=
  ∀ mode closer c, Parse.Onward Sequence.first c.pos (read mode closer c)

theorem Onward.mono {x : Except Fault α} {pos' : Nat} (h : Onward place pos x) (hle : pos' ≤ pos) :
    Onward place pos' x := by
  cases x with
  | ok a => exact Nat.le_trans hle h
  | error f => exact Nat.le_trans hle h

theorem Onward.bind {x : Except Fault α} {g : α → Except Fault β} (hx : Onward place pos x)
    (hg : ∀ a, pos ≤ place a → Onward place' pos (g a)) : Onward place' pos (x >>= g) := by
  cases x with
  | ok a => exact hg a hx
  | error f => exact hx

/-- A container that refuses an open sequence. -/
theorem onward_closed {closer : Closer} {fault : Sequence → Fault} {g : Sequence → Except Fault β}
    (hread : read.Onward) (hc : pos ≤ c.pos) (hfault : ∀ body, pos ≤ (fault body).offset)
    (hg : ∀ body : Sequence, pos ≤ body.first → Onward place' pos (g body)) :
    Onward place' pos (do
      let body ← read mode closer c
      if body.isOpen then throw (fault body)
      g body) := by
  refine ((hread mode closer c).mono hc).bind fun body hbody => ?_
  cases hopen : body.isOpen with
  | true => exact hfault body
  | false => exact hg body hbody

/-! ## cursors -/

theorem pos_le_of_reads {s : Bytes} (h : c.Reads s d) : c.pos ≤ d.pos := by
  rw [h.pos]
  exact Nat.le_add_right _ _

theorem token_onward (c : Cursor) : Onward (fun p => p.2.pos) c.pos c.token := by
  cases htoken : c.token with
  | ok p => exact pos_le_of_reads (Cursor.token_reads htoken).1
  | error f =>
    unfold Cursor.token at htoken
    split at htoken
    · cases htoken
    · cases htoken
      exact Nat.le_refl _

theorem environmentName_onward (c : Cursor) : Onward (fun p => p.2.pos) c.pos c.environmentName := by
  cases hname : c.environmentName with
  | ok p => exact pos_le_of_reads (Cursor.environmentName_reads hname)
  | error f =>
    unfold Cursor.environmentName at hname
    split at hname
    · cases hname
      exact Nat.le_refl _
    · split at hname
      · cases hname
        exact Nat.le_refl _
      · split at hname
        · cases hname
          exact Nat.le_refl _
        · cases hname

theorem delimited_onward (c : Cursor) : Onward (fun p => p.2.pos) c.pos c.delimited := by
  cases htext : c.delimited with
  | ok p => exact pos_le_of_reads (Cursor.delimited_reads htext)
  | error f =>
    unfold Cursor.delimited at htext
    split at htext
    · cases htext
      exact Nat.le_refl _
    · dsimp only at htext
      split at htext
      · cases htext
        exact Nat.le_refl _
      · split at htext
        · split at htext
          · cases htext
            exact Nat.le_refl _
          · cases htext
        · cases htext
          exact Nat.le_refl _

/-! ## arguments -/

theorem group_onward {start : Nat} (hread : read.Onward) (hstart : pos ≤ start) (hc : pos ≤ c.pos) :
    Onward (fun p => p.2.pos) pos (group read mode start c) :=
  onward_closed hread hc (fun _ => hstart) fun body hbody => Nat.le_trans hbody body.first_le_cursor

theorem optionalArgument_onward (hread : read.Onward) :
    Onward (fun p => p.2.pos) c.pos (optionalArgument read mode c) := by
  unfold optionalArgument
  by_cases hsign : c.peek? = some Byte.openBracket
  · rw [if_neg (by simpa using hsign)]
    exact onward_closed hread (pos_le_of_reads (Cursor.peek_reads hsign)) (fun _ => Nat.le_refl _)
      fun body hbody => Nat.le_trans hbody body.first_le_cursor
  · rw [if_pos hsign]
    exact Nat.le_refl c.pos

theorem mandatoryArgument_onward (hread : read.Onward) :
    Onward (fun p => p.2.pos) c.pos (mandatoryArgument r read mode c) := by
  have hhere : c.pos ≤ c.skipSpace.2.pos := pos_le_of_reads c.skipSpace_reads
  unfold mandatoryArgument
  dsimp only
  split
  · exact Nat.le_refl c.pos
  · next b hb =>
    split
    · next hopen =>
      cases hopen
      refine (group_onward hread hhere ?_).bind fun _ hstop => hstop
      exact Nat.le_trans hhere (pos_le_of_reads (Cursor.peek_reads hb))
    · split
      · refine ((token_onward _).mono hhere).bind fun ⟨t, stop⟩ hstop => ?_
        dsimp only
        split
        · split
          · exact Nat.le_refl c.pos
          · exact hstop
        · exact Nat.le_refl c.pos
      · split
        · exact Nat.le_trans hhere (pos_le_of_reads (Cursor.character_reads _))
        · exact Nat.le_refl c.pos

theorem argument_onward (hread : read.Onward) (kind : ArgKind) :
    Onward (fun p => p.2.pos) c.pos (argument r read mode kind c) := by
  cases kind with
  | star =>
    rw [argument, starArgument]
    split
    · next hstar => exact pos_le_of_reads (Cursor.peek_reads hstar)
    · exact Nat.le_refl c.pos
  | optional => exact optionalArgument_onward hread
  | mandatory => exact mandatoryArgument_onward hread

theorem arguments_onward (hread : read.Onward) (kinds : List ArgKind) (c : Cursor) :
    Onward (fun p => p.2.pos) c.pos (arguments r read mode kinds c) := by
  induction kinds generalizing c with
  | nil => exact Nat.le_refl c.pos
  | cons kind kinds ih =>
    rw [arguments]
    refine (argument_onward hread kind).bind fun ⟨arg?, d⟩ hd => ?_
    exact ((ih d).mono hd).bind fun _ hstop => hstop

/-! ## nodes -/

theorem environment_onward {start : Nat} (hread : read.Onward) (hstart : pos ≤ start) (hc : pos ≤ c.pos) :
    Onward (fun p => p.2.pos) pos (environment r read mode start c) := by
  unfold environment
  refine ((environmentName_onward c).mono hc).bind fun ⟨name, d⟩ hd => ?_
  refine ((arguments_onward hread _ d).mono hd).bind fun ⟨args, e⟩ he => ?_
  dsimp only
  split
  · split
    · exact hstart
    · next hbody => exact Nat.le_trans he (pos_le_of_reads (Cursor.verbatimBody_reads hbody))
  · refine onward_closed hread he (fun _ => hstart) fun body hbody => ?_
    refine ((environmentName_onward body.cursor).mono (Nat.le_trans hbody body.first_le_cursor)).bind
      fun ⟨found, stop⟩ hstop => ?_
    dsimp only
    split
    · exact Nat.le_trans hbody body.first_le_last
    · exact hstop

/-- A formula ends where the sequence in it does, or with the first half of what closes it. -/
theorem formula_onward {closer : Closer} {cause : Cause} {shape : Shape} {start : Nat} (hread : read.Onward)
    (hstart : pos ≤ start) (hc : pos ≤ c.pos) :
    Onward (fun p => p.2.pos) pos (do
      let body ← read .math closer c
      if body.isOpen then throw ⟨start, cause, body.cursor.pos⟩
      return (Node.branch ⟨start, body.cursor.pos⟩ {} shape [] body.nodes, body.cursor)) :=
  onward_closed hread hc (fun _ => hstart) fun body hbody => Nat.le_trans hbody body.first_le_cursor

theorem pos_le_advance (n : Nat) (c : Cursor) : c.pos ≤ (c.advance n).pos := by
  induction n generalizing c with
  | zero => exact Nat.le_refl _
  | succ n ih =>
    refine Nat.le_trans ?_ (ih c.step)
    unfold Cursor.step
    split
    · exact Nat.le_refl _
    · exact Nat.le_succ _

theorem inlineDollar_onward {start : Nat} (hread : read.Onward) (hstart : pos ≤ start) (hc : pos ≤ c.pos) :
    Onward (fun p => p.2.pos) pos (inlineDollar read start c) := by
  refine onward_closed hread hc (fun _ => hstart) fun body hbody => ?_
  show pos ≤ Cursor.pos (if _ then _ else _)
  split
  · exact Nat.le_trans (Nat.le_trans hbody body.first_le_before) (pos_le_advance 1 _)
  · exact Nat.le_trans hbody body.first_le_cursor

theorem dollars_onward {start : Nat} (hread : read.Onward) (hstart : pos ≤ start) (hc : pos ≤ c.pos) :
    Onward (fun p => p.2.pos) pos (dollars read start c) := by
  have hdisplay : Onward (fun p => p.2.pos) pos (displayDollars read start c) := formula_onward hread hstart hc
  unfold dollars
  split
  · next f hf =>
    rw [hf] at hdisplay
    split
    · exact hc
    · exact hdisplay
  · next hok =>
    rw [hok] at hdisplay
    exact hdisplay

theorem verb_onward {start : Nat} {name : Bytes} (hc : pos ≤ c.pos) :
    Onward (fun p => p.2.pos) pos (verb start name c) := by
  unfold verb
  dsimp only
  refine ((delimited_onward _).mono ?_).bind fun _ hstop => hstop
  split
  · exact Nat.le_trans hc (pos_le_advance 1 c)
  · exact hc

theorem command_onward {start : Nat} {name : Bytes} (hread : read.Onward) (hc : pos ≤ c.pos) :
    Onward (fun p => p.2.pos) pos (command r read mode start name c) := by
  unfold command
  split
  · exact hc
  · exact ((arguments_onward hread _ c).mono hc).bind fun _ hstop => hstop

theorem control_onward {span : Span} {name : Bytes} (hread : read.Onward) (hstart : pos ≤ span.start)
    (hc : pos ≤ c.pos) : Onward (fun p => p.2.pos) pos (control r read mode span name c) := by
  unfold control
  split
  · exact environment_onward hread hstart hc
  split
  · exact ((environmentName_onward c).mono hc).bind fun _ _ => hstart
  split
  · exact formula_onward hread hstart hc
  split
  · exact formula_onward hread hstart hc
  split
  · exact hstart
  split
  · exact verb_onward hc
  · exact command_onward hread hc

theorem item_onward {t : Token} (hread : read.Onward) (hstart : pos ≤ t.span.start) (hc : pos ≤ c.pos) :
    Onward (fun p => p.2.pos) pos (item r read mode t c) := by
  unfold item
  split
  case h_8 =>
    split
    · exact ((arguments_onward hread _ c).mono hc).bind fun _ hstop => hstop
    · exact hc
  case h_9 => exact (group_onward hread hstart hc).bind fun _ hstop => hstop
  case h_10 => exact hstart
  case h_11 => exact inlineDollar_onward hread hstart hc
  case h_12 => exact dollars_onward hread hstart hc
  case h_13 => exact control_onward hread hstart hc
  all_goals exact hc

/-- **The parser does not go back.** -/
theorem content_onward (r : Registry) (steps : Nat) : (content r steps).Onward := by
  induction steps with
  | zero => exact fun _ _ c => Nat.le_refl c.pos
  | succ steps ih =>
    intro mode closer c
    have hnext := token_onward c
    rw [content]
    cases htoken : c.token with
    | error f =>
      rw [htoken] at hnext
      exact hnext
    | ok p =>
      obtain ⟨t, d⟩ := p
      rw [htoken] at hnext
      have hstart : c.pos ≤ t.span.start := Nat.le_of_eq (by rw [(Cursor.token_reads htoken).2])
      have hstop : c.pos ≤ Sequence.first ⟨[], t, c, d⟩ :=
        Nat.le_min.2 ⟨hstart, Nat.le_min.2 ⟨Nat.le_refl _, hnext⟩⟩
      dsimp only [bind, Except.bind]
      split
      · exact hstop
      · split
        · exact hstop
        · refine (item_onward ih hstart hnext).bind fun ⟨n, e⟩ he => ?_
          exact ((ih mode _ e).mono he).bind fun _ htail => htail

end TexTidy.Parse
