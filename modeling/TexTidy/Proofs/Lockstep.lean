import TexTidy.Proofs.Lexing

/-!
# TexTidy.Proofs.Lockstep

Two runs of the parser side by side. The runs may have different readers and different registries, as long as the
readers come to the same at later places and the registries say the same about every name that occurs in the text.

* `Precedes` orders the places of a source, and every node moves forward in that order.
* `Fault.StandsFrom` says where a fault is: at a place that can be reached from where reading began, and what the fault
  is about stands there (`Cause.Shows`).
* `Concur` compares two runs: they come to the same, and a fault in it stands at no earlier place. One walk through the
  functions of the parser shows that runs concur as soon as the readers that are handed to them concur at later places
  (`item_concur_of_agreeOn`, `round_concur`).
* By induction over what is left of the source, runs concur once there are enough steps (`content_concur`).
-/

namespace TexTidy

/-! ## the first marker -/

/-- A text with a marker in it is cut there or earlier. -/
theorem Bytes.exists_cut (marker before after : Bytes) :
    ∃ a b, cut marker (before ++ (marker ++ after)) = some (a, b) ∧ a <+: before := by
  induction before with
  | nil =>
    cases hs : marker ++ after with
    | nil => exact ⟨[], [], by simp [cut, (List.append_eq_nil_iff.1 hs).1], List.nil_prefix⟩
    | cons b s =>
      have hprefix : marker.isPrefixOf (b :: s) = true := by
        rw [← hs]
        exact List.isPrefixOf_iff_prefix.2 (List.prefix_append _ _)
      exact ⟨[], _, by rw [List.nil_append, cut, if_pos hprefix], List.nil_prefix⟩
  | cons b before ih =>
    obtain ⟨a, rest, hcut, ha⟩ := ih
    rw [List.cons_append, cut]
    split
    · exact ⟨[], _, rfl, List.nil_prefix⟩
    · exact ⟨b :: a, rest, by rw [hcut]; rfl, (List.prefix_cons_inj b).2 ha⟩

/-! ## the order of places -/

namespace Cursor

/-- One place comes before another: something stands between them. -/
def Precedes (c d : Cursor) : Prop :=
  ∃ s, s ≠ [] ∧ c.Reads s d

variable {c d e : Cursor} {s src : Bytes}

theorem Precedes.reads (h : c.Precedes d) (hreads : d.Reads s e) : c.Precedes e := by
  obtain ⟨t, ht, hcd⟩ := h
  exact ⟨t ++ s, by simp [ht], hcd.trans hreads⟩

theorem Precedes.pos_lt (h : c.Precedes d) : c.pos < d.pos := by
  obtain ⟨t, ht, hcd⟩ := h
  have hpos := hcd.pos
  have hlength := List.length_pos_iff.2 ht
  omega

theorem Precedes.length_lt (h : c.Precedes d) : d.rest.length < c.rest.length := by
  obtain ⟨t, ht, hcd⟩ := h
  have hrest := hcd.length
  have hlength := List.length_pos_iff.2 ht
  omega

theorem Precedes.at_source (h : c.Precedes d) (hc : c.At src) : d.At src := by
  obtain ⟨t, -, hcd⟩ := h
  exact hc.reads hcd

/-- A token stands before what comes after it. -/
theorem precedes_of_token {t : Token} (token : c.token = .ok (t, d)) (more : t.kind ≠ .endOfInput) :
    c.Precedes d :=
  ⟨_, raw_ne_nil_of_token token more, (token_reads token).1⟩

/-- What is read at a place is at the front of what is left there. -/
theorem Reads.isPrefix (h : c.Reads s d) : s <+: c.rest :=
  ⟨d.rest, h.text.symm⟩

theorem Reads.rest_isSuffix (h : c.Reads s d) : d.rest <:+ c.rest :=
  ⟨s, h.text.symm⟩

theorem Precedes.rest_isSuffix (h : c.Precedes d) : d.rest <:+ c.rest := by
  obtain ⟨t, -, hcd⟩ := h
  exact hcd.rest_isSuffix

theorem At.length (h : c.At src) : c.pos + c.rest.length = src.length := by
  have hbound := h.bound
  rw [h.rest, List.length_drop]
  omega

end Cursor

/-! ## where faults stand -/

/-- What a fault is about, as it stands in the text from the place of the fault on. -/
def Cause.Shows (rest : Bytes) : Cause → Prop
  | .trailingEscape => rest = [Byte.backslash]
  | .nameExpected => rest.head? ≠ some Byte.openBrace
  | .nameUnclosed => ∃ s, rest = Byte.openBrace :: s ∧ Byte.closeBrace ∉ s
  | .nameInvalid name =>
    Byte.openBrace :: (name ++ [Byte.closeBrace]) <+: rest ∧ (name = [] ∨ ∃ b ∈ name, Cursor.isNameBreaker b = true)
  | .delimiterExpected => rest = []
  | .delimiterInvalid d => rest ≠ [] ∧ (Utf8.first rest).1 = d ∧ Cursor.isDelimiterForbidden d = true
  | .verbUnclosed =>
    rest ≠ [] ∧ ∀ content after, rest.drop (Utf8.first rest).2 = content ++ (rest.take (Utf8.first rest).2 ++ after) →
      Byte.newline ∈ content
  | .unmatchedBrace => [Byte.closeBrace] <+: rest
  | .unexpectedEnd name => Cursor.endMarker name <+: rest
  | .unexpectedCommand name => Byte.backslash :: name <+: rest
  | .optionalUnclosed => [Byte.openBracket] <+: rest
  | .groupUnclosed => [Byte.openBrace] <+: rest
  | .verbatimUnclosed name | .environmentUnclosed name => Cursor.beginMarker name <+: rest
  | .environmentMismatch found opened => Cursor.endMarker found <+: rest ∧ found ≠ opened
  | .inlineUnclosed => [Byte.dollar] <+: rest ∨ bytes "\\(" <+: rest
  | .displayUnclosed => bytes "$$" <+: rest ∨ bytes "\\[" <+: rest
  | .tooDeep => False

namespace Fault

/-- The fault stands at a place that is reached from `c`, and what it is about stands there. -/
def StandsFrom (c : Cursor) (f : Fault) : Prop :=
  ∃ s d, c.Reads s d ∧ f.offset = d.pos ∧ f.cause.Shows d.rest

variable {c d : Cursor} {f : Fault} {s : Bytes}

theorem standsFrom_self {cause : Cause} (h : cause.Shows c.rest) (stopped : Nat) :
    (Fault.mk c.pos cause stopped).StandsFrom c :=
  ⟨[], c, .refl c, rfl, h⟩

/-- A fault that stands at a later place. -/
theorem standsFrom_later {cause : Cause} (hd : c.Precedes d) (h : cause.Shows d.rest) (stopped : Nat) :
    (Fault.mk d.pos cause stopped).StandsFrom c := by
  obtain ⟨s, -, hreads⟩ := hd
  exact ⟨s, d, hreads, rfl, h⟩

theorem StandsFrom.of_reads (h : f.StandsFrom d) (hreads : c.Reads s d) : f.StandsFrom c := by
  obtain ⟨t, e, hde, hoffset, hshows⟩ := h
  exact ⟨s ++ t, e, hreads.trans hde, hoffset, hshows⟩

theorem StandsFrom.pos_le (h : f.StandsFrom c) : c.pos ≤ f.offset := by
  obtain ⟨t, d, hcd, hoffset, -⟩ := h
  rw [hoffset, hcd.pos]
  exact Nat.le_add_right _ _

/-- No fault that stands somewhere is about too few steps. -/
theorem StandsFrom.cause_ne (h : f.StandsFrom c) : f.cause ≠ .tooDeep := by
  obtain ⟨t, d, -, -, hshows⟩ := h
  intro hcause
  rw [hcause] at hshows
  exact hshows

end Fault

/-! ## registries that say the same -/

namespace Registry

/-- Two registries say the same about every name that occurs in a text. -/
structure AgreeOn (text : Bytes) (r r' : Registry) : Prop where
  command : ∀ name, name <:+: text → r.command? name = r'.command? name
  environment : ∀ name, name <:+: text → r.environment? name = r'.environment? name

namespace AgreeOn

variable {text part name : Bytes} {r r' : Registry}

theorem refl (text : Bytes) (r : Registry) : AgreeOn text r r :=
  ⟨fun _ _ => rfl, fun _ _ => rfl⟩

theorem mono (h : AgreeOn text r r') (hpart : part <:+: text) : AgreeOn part r r' :=
  ⟨fun name hname => h.command name (hname.trans hpart), fun name hname => h.environment name (hname.trans hpart)⟩

theorem isVerb (h : AgreeOn text r r') (hname : name <:+: text) : r.isVerb name = r'.isVerb name := by
  simp only [Registry.isVerb, h.command name hname]

end AgreeOn

end Registry

namespace Parse

/-! ## runs that come to the same -/

/-- Two computations come to the same, and if that is a fault, it stands at `c` or at a later place. -/
structure Concur {α : Type} (c : Cursor) (x y : Except Fault α) : Prop where
  same : x = y
  place : ∀ f, x = .error f → f.StandsFrom c

namespace Concur

variable {α β : Type} {c d : Cursor} {s : Bytes} {x y : Except Fault α}

theorem ok (a : α) : Concur c (.ok a) (.ok a) := by
  refine ⟨rfl, fun f h => ?_⟩
  cases h

theorem fault {f : Fault} (h : f.StandsFrom c) : Concur c (.error f : Except Fault α) (.error f) := by
  refine ⟨rfl, fun g hg => ?_⟩
  cases hg
  exact h

/-- A fault that stands right at `c`. -/
theorem fault_here {cause : Cause} {stopped : Nat} (h : cause.Shows c.rest) :
    Concur c (.error ⟨c.pos, cause, stopped⟩ : Except Fault α) (.error ⟨c.pos, cause, stopped⟩) :=
  fault (Fault.standsFrom_self h stopped)

theorem blame (h : Concur c x y) (f : Fault) (hf : x = .error f) : c.pos ≤ f.offset ∧ f.cause ≠ .tooDeep :=
  ⟨(h.place f hf).pos_le, (h.place f hf).cause_ne⟩

theorem of_reads (h : Concur d x y) (hreads : c.Reads s d) : Concur c x y :=
  ⟨h.same, fun f hf => (h.place f hf).of_reads hreads⟩

theorem of_precedes (h : Concur d x y) (hd : c.Precedes d) : Concur c x y := by
  obtain ⟨s, -, hreads⟩ := hd
  exact h.of_reads hreads

/-- Computations in two parts concur if their parts do. -/
theorem bind {f g : α → Except Fault β} (h : Concur c x y)
    (hf : ∀ a, x = .ok a → Concur c (f a) (g a)) : Concur c (x >>= f) (y >>= g) := by
  obtain ⟨rfl, hplace⟩ := h
  cases x with
  | error e => exact fault (hplace e rfl)
  | ok a => exact hf a rfl

/-- The same for a container, which refuses a sequence that is left open. -/
theorem closed {x y : Except Fault Sequence} {refusal : Sequence → Fault} {f g : Sequence → Except Fault β}
    (h : Concur c x y) (hrefusal : ∀ body, (refusal body).StandsFrom c)
    (hf : ∀ body, x = .ok body → body.isOpen = false → Concur c (f body) (g body)) :
    Concur c
      (do
        let body ← x
        if body.isOpen then throw (refusal body)
        f body)
      (do
        let body ← y
        if body.isOpen then throw (refusal body)
        g body) := by
  refine h.bind fun body hbody => ?_
  cases hopen : body.isOpen with
  | true => exact fault (hrefusal body)
  | false => exact hf body hbody hopen

end Concur

/-! ## units that are no sequences -/

section

variable (c : Cursor)

theorem token_concur : Concur c c.token c.token := by
  refine ⟨rfl, fun f hf => ?_⟩
  obtain ⟨hrest, rfl⟩ := Cursor.rest_of_token_error hf
  exact ⟨[], c, .refl c, rfl, hrest⟩

theorem environmentName_concur : Concur c c.environmentName c.environmentName := by
  unfold Cursor.environmentName
  split
  · next hopen =>
    refine .fault_here ?_
    exact hopen
  · next hopen =>
    obtain ⟨s, hs⟩ := List.head?_eq_some_iff.1 (Classical.not_not.1 hopen)
    rw [hs, List.tail_cons]
    split
    · next hcut =>
      refine .fault_here ⟨s, hs, fun hclose => ?_⟩
      obtain ⟨before, after, rfl⟩ := List.append_of_mem hclose
      obtain ⟨a, b, hfound, -⟩ := Bytes.exists_cut [Byte.closeBrace] before after
      simp [hcut] at hfound
    · next name after hcut =>
      split
      · next hinvalid =>
        refine .fault_here ⟨?_, by simpa using hinvalid⟩
        rw [hs, Bytes.eq_of_cut hcut]
        exact ⟨after, by simp⟩
      · exact .ok _

theorem delimited_concur : Concur c c.delimited c.delimited := by
  unfold Cursor.delimited
  dsimp only
  split
  · next hempty =>
    refine .fault_here ?_
    exact List.isEmpty_iff.1 hempty
  · next hrest =>
    rw [List.isEmpty_iff] at hrest
    split
    · next hforbidden => exact .fault_here ⟨hrest, rfl, hforbidden⟩
    · split
      · next content after hcut =>
        split
        · next hnewline =>
          refine .fault_here ⟨hrest, fun text behind htext => ?_⟩
          -- the first delimiter is behind a newline, and so are all others
          obtain ⟨a, b, hfound, ha⟩ := Bytes.exists_cut (c.rest.take (Utf8.first c.rest).2) text behind
          rw [← htext, hcut] at hfound
          cases hfound
          exact ha.subset (by simpa [Bytes.hasNewline] using hnewline)
        · exact .ok _
      · next hcut =>
        refine .fault_here ⟨hrest, fun text behind htext => ?_⟩
        obtain ⟨a, b, hfound, -⟩ := Bytes.exists_cut (c.rest.take (Utf8.first c.rest).2) text behind
        rw [← htext, hcut] at hfound
        cases hfound

end

/-! ## what is read behind a place -/

/-- Two readers concur at every place after `c`. -/
def Reader.ConcurAfter (c : Cursor) (read read' : Reader) : Prop :=
  ∀ mode closer d, c.Precedes d → Concur d (read mode closer d) (read' mode closer d)

section

/- All that is read here is read behind a token that stands at `base`. -/

variable {r r' : Registry} {read read' : Reader} {base c d : Cursor} {mode : Mode} {start : Nat}

/-- A container whose content begins after `base`. -/
theorem Reader.ConcurAfter.closed {β : Type} {closer : Closer} {refusal : Sequence → Fault}
    {f : Sequence → Except Fault β} (hread : read.ConcurAfter base read') (hc : base.Precedes c)
    (hrefusal : ∀ body, (refusal body).StandsFrom base)
    (hf : ∀ body, read mode closer c = .ok body → body.isOpen = false → Concur base (f body) (f body)) :
    Concur base
      (do
        let body ← read mode closer c
        if body.isOpen then throw (refusal body)
        f body)
      (do
        let body ← read' mode closer c
        if body.isOpen then throw (refusal body)
        f body) :=
  ((hread _ _ c hc).of_precedes hc).closed hrefusal hf

/-- A container whose own fault is about the token at `base`. -/
theorem Reader.ConcurAfter.container {β : Type} {closer : Closer} {cause : Cause} {f : Sequence → Except Fault β}
    (hread : read.ConcurAfter base read') (hc : base.Precedes c) (hshows : cause.Shows base.rest)
    (hf : ∀ body, read mode closer c = .ok body → body.isOpen = false → Concur base (f body) (f body)) :
    Concur base
      (do
        let body ← read mode closer c
        if body.isOpen then throw ⟨base.pos, cause, body.cursor.pos⟩
        f body)
      (do
        let body ← read' mode closer c
        if body.isOpen then throw ⟨base.pos, cause, body.cursor.pos⟩
        f body) :=
  hread.closed hc (fun _ => Fault.standsFrom_self hshows _) hf

/-- The brace that opens a group is the token at `base` or comes after it. -/
theorem group_concur (hread : read.ConcurAfter base read') (hc : base.Precedes c)
    (hopen : ∀ stopped, (Fault.mk start .groupUnclosed stopped).StandsFrom base) :
    Concur base (Parse.group read mode start c) (Parse.group read' mode start c) :=
  hread.closed hc (fun _ => hopen _) fun _ _ _ => .ok _

/-! ### arguments -/

theorem optionalArgument_concur (hread : read.ConcurAfter base read') (hc : base.Precedes c) :
    Concur base (optionalArgument read mode c) (optionalArgument read' mode c) := by
  unfold optionalArgument
  by_cases hsign : c.peek? = some Byte.openBracket
  · rw [if_neg (by simpa using hsign), if_neg (by simpa using hsign)]
    have hbracket := Cursor.peek_reads hsign
    refine hread.closed (hc.reads hbracket) (fun _ => Fault.standsFrom_later hc ?_ _) fun _ _ _ => .ok _
    exact hbracket.isPrefix
  · rw [if_pos hsign, if_pos hsign]
    exact .ok _

/-- The name of a bare command is a name that occurs in the text. -/
theorem mandatoryArgument_concur (hagree : r.AgreeOn base.rest r') (hread : read.ConcurAfter base read')
    (hc : base.Precedes c) :
    Concur base (mandatoryArgument r read mode c) (mandatoryArgument r' read' mode c) := by
  have hhere := hc.reads (Cursor.skipSpace_reads c)
  unfold mandatoryArgument
  dsimp only
  split
  · exact .ok _
  · next b hb =>
    have hsign := Cursor.peek_reads hb
    split
    · next hopen =>
      subst hopen
      exact (group_concur hread (hhere.reads hsign) (Fault.standsFrom_later hhere hsign.isPrefix)).bind fun _ _ => .ok _
    · split
      · refine ((token_concur _).of_precedes hhere).bind fun ⟨t, stop⟩ token => ?_
        dsimp only
        split
        · next name kind =>
          have hname := (Cursor.token_reads token).1.isPrefix
          rw [kind] at hname
          have hoccurs : name <:+: base.rest :=
            ((List.suffix_cons _ _).isInfix.trans hname.isInfix).trans hhere.rest_isSuffix.isInfix
          rw [hagree.isVerb hoccurs]
          split <;> exact .ok _
        · exact .ok _
      · split <;> exact .ok _

theorem argument_concur (kind : ArgKind) (hagree : r.AgreeOn base.rest r') (hread : read.ConcurAfter base read')
    (hc : base.Precedes c) : Concur base (argument r read mode kind c) (argument r' read' mode kind c) := by
  cases kind with
  | star => exact .ok _
  | optional => exact optionalArgument_concur hread hc
  | mandatory => exact mandatoryArgument_concur hagree hread hc

/-- What comes after an argument comes after `base`, be the argument there or not. -/
theorem arguments_concur (kinds : List ArgKind) (hagree : r.AgreeOn base.rest r') (hsound : read.Sound r)
    (hread : read.ConcurAfter base read') (hc : base.Precedes c) :
    Concur base (Parse.arguments r read mode kinds c) (Parse.arguments r' read' mode kinds c) := by
  induction kinds generalizing c with
  | nil => exact .ok _
  | cons kind kinds ih =>
    refine (argument_concur kind hagree hread hc).bind fun ⟨arg?, d⟩ harg => ?_
    have hmoves : c.Reads _ d := (argument_derives hsound harg .done).moves
    exact (ih (hc.reads hmoves)).bind fun _ _ => .ok _

/-! ### nodes -/

section

variable {name : Bytes}

/-- A command stands before what comes after its name. -/
theorem precedes_of_name (hname : base.Reads (Byte.backslash :: name) c) : base.Precedes c :=
  ⟨_, List.cons_ne_nil _ _, hname⟩

theorem name_occurs (hname : base.Reads (Byte.backslash :: name) c) : name <:+: base.rest :=
  (List.suffix_cons _ _).isInfix.trans hname.isPrefix.isInfix

theorem command_concur (hagree : r.AgreeOn base.rest r') (hsound : read.Sound r) (hread : read.ConcurAfter base read')
    (hname : base.Reads (Byte.backslash :: name) c) :
    Concur base (Parse.command r read mode start name c) (Parse.command r' read' mode start name c) := by
  unfold Parse.command
  rw [hagree.command name (name_occurs hname)]
  split
  · exact .ok _
  · exact (arguments_concur _ hagree hsound hread (precedes_of_name hname)).bind fun _ _ => .ok _

theorem verb_concur (hc : base.Precedes c) : Concur base (Parse.verb start name c) (Parse.verb start name c) := by
  unfold Parse.verb
  dsimp only
  refine ((delimited_concur _).of_precedes ?_).bind fun _ _ => .ok _
  split
  · next hstar => exact hc.reads (Cursor.peek_reads hstar.2)
  · exact hc

theorem beginMarker_isPrefix (hbegin : base.Reads (Byte.backslash :: bytes "begin") c)
    (hname : c.environmentName = .ok (name, d)) : Cursor.beginMarker name <+: base.rest := by
  rw [beginMarker_eq]
  exact (hbegin.trans (Cursor.environmentName_reads hname)).isPrefix

theorem endMarker_isPrefix (hend : base.Reads (Byte.backslash :: bytes "end") c)
    (hname : c.environmentName = .ok (name, d)) : Cursor.endMarker name <+: base.rest := by
  rw [endMarker_eq]
  exact (hend.trans (Cursor.environmentName_reads hname)).isPrefix

theorem environment_concur (hagree : r.AgreeOn base.rest r') (hsound : read.Sound r)
    (hread : read.ConcurAfter base read') (hbegin : base.Reads (Byte.backslash :: bytes "begin") c) :
    Concur base (Parse.environment r read mode base.pos c) (Parse.environment r' read' mode base.pos c) := by
  have hc := precedes_of_name hbegin
  unfold Parse.environment
  refine ((environmentName_concur c).of_precedes hc).bind fun ⟨name, d⟩ hname => ?_
  have hd := hc.reads (Cursor.environmentName_reads hname)
  have hmarker := beginMarker_isPrefix hbegin hname
  have hoccurs : name <:+: base.rest := List.IsInfix.trans ⟨_, _, rfl⟩ hmarker.isInfix
  dsimp only
  rw [hagree.environment name hoccurs]
  refine (arguments_concur _ hagree hsound hread hd).bind fun ⟨args, e⟩ hargs => ?_
  have hargs : d.Reads _ e := (arguments_derives hsound hargs).moves
  have he := hd.reads hargs
  dsimp only
  split
  · split
    · exact .fault_here hmarker
    · exact .ok _
  · refine hread.container he hmarker fun body hbody hclosed => ?_
    -- the name behind `\end`, which is behind the content
    obtain ⟨hnodes, hlast, hends⟩ := (hsound.derives hbody).moves
    have hbefore := he.reads hnodes
    have hspan : body.last.span.start = body.before.pos := by
      rw [(Cursor.token_reads (hsound.derives hbody).stops).2]
    refine ((environmentName_concur _).of_precedes (hbefore.reads hlast)).bind fun ⟨found, stop⟩ hfound => ?_
    dsimp only
    split
    · next hdiffer =>
      have hkind : body.last.kind = .command (bytes "end") := hends.resolve_left (by simp [hclosed])
      rw [hkind] at hlast
      rw [hspan]
      refine .fault (Fault.standsFrom_later hbefore ?_ _)
      exact ⟨endMarker_isPrefix hlast hfound, hdiffer⟩
    · exact .ok _

end

theorem inlineDollar_concur (hread : read.ConcurAfter base read') (hc : base.Precedes c)
    (hsign : [Byte.dollar] <+: base.rest) :
    Concur base (inlineDollar read base.pos c) (inlineDollar read' base.pos c) :=
  hread.container hc (.inl hsign) fun _ _ _ => .ok _

theorem displayDollars_concur (hread : read.ConcurAfter base read') (hc : base.Precedes c)
    (hsign : bytes "$$" <+: base.rest) :
    Concur base (displayDollars read base.pos c) (displayDollars read' base.pos c) :=
  hread.container hc (.inl hsign) fun _ _ _ => .ok _

/-- A fault that is not replaced by an empty formula is one that was there before. -/
theorem dollars_concur (hread : read.ConcurAfter base read') (hc : base.Precedes c)
    (hsign : bytes "$$" <+: base.rest) : Concur base (dollars read base.pos c) (dollars read' base.pos c) := by
  have hdisplay := displayDollars_concur hread hc hsign
  unfold dollars
  rw [← hdisplay.same]
  split
  · next f hf =>
    split
    · exact .ok _
    · exact .fault (hdisplay.place f hf)
  · exact .ok _

theorem control_concur {name : Bytes} {span : Span} (hagree : r.AgreeOn base.rest r') (hsound : read.Sound r)
    (hread : read.ConcurAfter base read') (hname : base.Reads (Byte.backslash :: name) c)
    (hspan : span.start = base.pos) :
    Concur base (control r read mode span name c) (control r' read' mode span name c) := by
  have hc := precedes_of_name hname
  unfold control
  rw [hspan, hagree.isVerb (name_occurs hname)]
  split
  · next hbegin =>
    subst hbegin
    exact environment_concur hagree hsound hread hname
  · split
    · next hend =>
      subst hend
      refine ((environmentName_concur c).of_precedes hc).bind fun ⟨found, stop⟩ hfound => ?_
      exact .fault_here (endMarker_isPrefix hname hfound)
    · split
      · next hparen =>
        subst hparen
        exact hread.container hc (.inr hname.isPrefix) fun _ _ _ => .ok _
      · split
        · next hbracket =>
          subst hbracket
          exact hread.container hc (.inr hname.isPrefix) fun _ _ _ => .ok _
        · split
          · exact .fault_here hname.isPrefix
          · split
            · exact verb_concur hc
            · exact command_concur hagree hsound hread hname

/-- **What a token makes the parser read begins behind that token.** The node does not depend on what the reader does
    at any other place, nor on what the registry says about names that do not occur from the token on. -/
theorem item_concur_of_agreeOn {t : Token} (hagree : r.AgreeOn base.rest r') (token : base.token = .ok (t, c))
    (more : t.kind ≠ .endOfInput) (hsound : read.Sound r) (hread : read.ConcurAfter base read') :
    Concur base (item r read mode t c) (item r' read' mode t c) := by
  have hc := Cursor.precedes_of_token token more
  obtain ⟨htoken, hspan⟩ := Cursor.token_reads token
  have hstart : t.span.start = base.pos := by rw [hspan]
  unfold item
  rw [hstart]
  split
  case h_8 =>
    split
    · exact (arguments_concur _ hagree hsound hread hc).bind fun _ _ => .ok _
    · exact .ok _
  case h_9 kind =>
    rw [kind] at htoken
    exact (group_concur hread hc (Fault.standsFrom_self htoken.isPrefix)).bind fun _ _ => .ok _
  case h_10 kind =>
    rw [kind] at htoken
    exact .fault_here htoken.isPrefix
  case h_11 kind =>
    rw [kind] at htoken
    exact inlineDollar_concur hread hc htoken.isPrefix
  case h_12 kind =>
    rw [kind] at htoken
    exact dollars_concur hread hc htoken.isPrefix
  case h_13 name kind =>
    rw [kind] at htoken
    exact control_concur hagree hsound hread htoken hstart
  all_goals exact .ok _

end

/-! ## the recursion without a bound -/

/-- One round of reading a sequence: a token, and unless the sequence ends there, the node that the token begins and
    the rest of the sequence, both read by `read`. -/
def round (r : Registry) (read : Reader) : Reader := fun mode closer c => do
  let (t, next) ← c.token
  match closer.pass t.kind with
  | none => return ⟨[], t, c, next⟩
  | some closer =>
    if t.kind = .endOfInput then return ⟨[], t, c, next⟩
    let (n, next) ← item r read mode t next
    let tail ← read mode closer next
    return { tail with nodes := link n tail.nodes }

theorem content_succ (r : Registry) (steps : Nat) : content r (steps + 1) = round r (content r steps) :=
  rfl

section

variable {r r' : Registry} {read read' : Reader} {mode : Mode} {closer : Closer} {c d e : Cursor} {t : Token} {n : Node}

/-- A node ends behind its token. -/
theorem precedes_of_item (hsound : read.Sound r) (token : c.token = .ok (t, d)) (more : t.kind ≠ .endOfInput)
    (h : item r read mode t d = .ok (n, e)) : c.Precedes e := by
  have hitem := item_derives hsound token more h
  exact ⟨n.raw, hitem.raw_ne_nil, hitem.moves.1⟩

theorem round_concur (hagree : r.AgreeOn c.rest r') (hsound : read.Sound r) (hread : read.ConcurAfter c read') :
    Concur c (round r read mode closer c) (round r' read' mode closer c) := by
  refine (token_concur c).bind fun ⟨t, d⟩ token => ?_
  dsimp only
  split
  · exact .ok _
  · next later pass =>
    split
    · exact .ok _
    · next more =>
      refine (item_concur_of_agreeOn hagree token more hsound hread).bind fun ⟨n, e⟩ hitem => ?_
      have he := precedes_of_item hsound token more hitem
      exact ((hread mode later e he).of_precedes he).bind fun _ _ => .ok _

/-- **Enough steps are as good as any others**: once there are more of them than bytes left, runs concur, and so do runs
    with registries that say the same about the names in these bytes. -/
theorem content_concur (hagree : r.AgreeOn c.rest r') (mode : Mode) (closer : Closer) {steps steps' : Nat}
    (h : c.rest.length < steps) (h' : c.rest.length < steps') :
    Concur c (content r steps mode closer c) (content r' steps' mode closer c) := by
  induction hlength : c.rest.length using Nat.strong_induction_on generalizing mode closer c steps steps' with
  | _ left shorter =>
    subst hlength
    obtain ⟨steps, rfl⟩ := Nat.exists_eq_succ_of_ne_zero (Nat.ne_of_gt (Nat.zero_lt_of_lt h))
    obtain ⟨steps', rfl⟩ := Nat.exists_eq_succ_of_ne_zero (Nat.ne_of_gt (Nat.zero_lt_of_lt h'))
    rw [content_succ, content_succ]
    refine round_concur hagree (content_sound r steps) fun mode closer d hd => ?_
    have hshort := hd.length_lt
    exact shorter _ hshort (hagree.mono hd.rest_isSuffix.isInfix) mode closer (by omega) (by omega) rfl

/-- A sequence does not depend on what the registry says about names that do not occur in the text. -/
theorem sequence_concur_of_agreeOn (hagree : r.AgreeOn c.rest r') (mode : Mode) (closer : Closer) :
    Concur c (sequence r mode closer c) (sequence r' mode closer c) :=
  content_concur hagree mode closer (Nat.lt_succ_self _) (Nat.lt_succ_self _)

end

end Parse

end TexTidy
