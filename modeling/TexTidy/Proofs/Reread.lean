import TexTidy.Proofs.Complete
import TexTidy.Proofs.Lossless
import TexTidy.Proofs.Respell

/-!
# TexTidy.Proofs.Reread

Whatever is a spelling of a tree that was read can be read, and reading it gives the structure of the tree
(`Derives.respells`). The proof goes along the derivation of the tree, with one lemma for each rule. In a
sequence the white space in front of a node is read before the node, so the invariant carries the white space
that is still pending.

`exists_document_of_spells`: the parser itself reads every spelling of a document.
-/

namespace TexTidy

open Bytes (ink)

/-! ## taking spellings apart -/

namespace Node

/-- White space in front of a node can be told from the node. -/
theorem split_unique {us us' ns ns' : List Node} {n n' : Node} (hus : ∀ u ∈ us, u.isSpace = true)
    (hus' : ∀ u ∈ us', u.isSpace = true) (hn : n.isSpace = false) (hn' : n'.isSpace = false)
    (h : us ++ n :: ns = us' ++ n' :: ns') : us = us' ∧ n = n' ∧ ns = ns' := by
  induction us generalizing us' with
  | nil =>
    cases us' with
    | nil => simpa using h
    | cons u us' =>
      cases h
      rw [hus' n (by simp)] at hn
      cases hn
  | cons u us ih =>
    cases us' with
    | nil =>
      cases h
      rw [hus n' (by simp)] at hn'
      cases hn'
    | cons u' us' =>
      obtain ⟨rfl, htail⟩ := List.cons.inj h
      obtain ⟨rfl, rfl, rfl⟩ := ih (fun v hv => hus v (List.mem_cons_of_mem _ hv))
        (fun v hv => hus' v (List.mem_cons_of_mem _ hv)) htail
      exact ⟨rfl, rfl, rfl⟩

end Node

namespace Spells

variable {r : Registry} {keep : Bool} {b : Before} {us ms : List Node} {m : Node} {s : Bytes}

/-- A container is spelled with its opening and its closing. -/
theorem branch {shape : Shape} {span : Span} {hints : Hints} {args content : List Node}
    (h : Spells r keep (.node (.branch span hints shape args content)) s)
    (hshape : shape.isContainer = true) :
    ∃ t u, s = shape.opening ++ t ++ u ++ shape.closing ∧ Spells r keep (.args args) t ∧
      Spells r keep (.nodes (shape.before r args) content) u ∧ (shape.opening = [Byte.dollar] → u ≠ []) := by
  cases h with
  | container kind taken inside apart => exact ⟨_, _, rfl, taken, inside, apart⟩
  | command => cases hshape
  | verbatim => cases hshape

/-- White space is spelled as white space. -/
theorem white (h : Spells r keep (.nodes b us) s) (hus : ∀ u ∈ us, u.isSpace = true) : ink s = [] := by
  cases h with
  | done spaces white => exact white
  | @item _ us w n t ns s gap solid code head rest =>
    rw [hus n (by simp)] at solid
    cases solid
  | @comment _ us w s' h c before content ns s spaces white same ends rest =>
    cases hus (.leaf s' h (.comment c before)) (by simp)

/-- A node behind white space is spelled behind white space. -/
theorem code (h : Spells r keep (.nodes b (us ++ m :: ms)) s) (hus : ∀ u ∈ us, u.isSpace = true)
    (hm : m.isSpace = false) (hcode : m.comment? = none) :
    ∃ w t s', s = w ++ t ++ s' ∧ Gap b us w m ∧ Spells r keep (.node m) t ∧
      Spells r keep (.nodes (m.before r) ms) s' := by
  generalize hns : us ++ m :: ms = ns at h
  cases h with
  | done spaces white =>
    rw [spaces m (by simp [← hns])] at hm
    cases hm
  | item gap solid code head rest =>
    obtain ⟨rfl, rfl, rfl⟩ := Node.split_unique hus gap.spaces hm solid hns
    exact ⟨_, _, _, rfl, gap, head, rest⟩
  | comment spaces white same ends rest =>
    obtain ⟨rfl, rfl, rfl⟩ := Node.split_unique hus spaces hm rfl hns
    cases hcode

/-- A comment behind white space is spelled behind white space, up to the end of a line. -/
theorem remark {c : Comment} (h : Spells r keep (.nodes b (us ++ m :: ms)) s)
    (hus : ∀ u ∈ us, u.isSpace = true) (hm : m.comment? = some c) :
    ∃ (w content s' : Bytes), s = w ++ Byte.percent :: (content ++ s') ∧ ink w = [] ∧
      content.trimEnd isLineBlank = c.content.trimEnd isLineBlank ∧ Cursor.LineEnds content s' ∧
      Spells r keep (.nodes {} ms) s' := by
  have hsolid : m.isSpace = false := Node.isSpace_of_comment? hm
  generalize hns : us ++ m :: ms = ns at h
  cases h with
  | done spaces white =>
    rw [spaces m (by simp [← hns])] at hsolid
    cases hsolid
  | item gap solid code head rest =>
    obtain ⟨rfl, rfl, rfl⟩ := Node.split_unique hus gap.spaces hsolid solid hns
    rw [code] at hm
    cases hm
  | comment spaces white same ends rest =>
    obtain ⟨rfl, rfl, rfl⟩ := Node.split_unique hus spaces hsolid rfl hns
    cases hm
    exact ⟨_, _, _, rfl, white, same, ends, rest⟩

end Spells

/-! ## reading a spelling -/

namespace Node

variable {keep : Bool}

@[simp] theorem isSpace_skeleton (n : Node) : (n.skeleton keep).isSpace = n.isSpace := by
  cases n with
  | leaf s h l => cases l <;> rfl
  | branch => rfl

theorem comment?_skeleton {n : Node} : (n.skeleton keep).comment? = none ↔ n.comment? = none := by
  cases n with
  | leaf s h l => cases l <;> simp [skeleton, Leaf.skeleton, comment?]
  | branch => exact Iff.rfl

theorem isEdible_skeleton (n : Node) : (n.skeleton keep).isEdible = n.isEdible := by
  cases n with
  | leaf s h l => cases l <;> rfl
  | branch s h shape args content => cases shape <;> rfl

end Node

namespace Parse

variable {r : Registry} {keep : Bool} {mode : Mode} {closer : Closer} {ns : List Node} {y : Bytes}

/-- From a place on, a sequence can be read that has the given structure and ends in front of `y`. -/
def Rereads (r : Registry) (keep : Bool) (mode : Mode) (closer : Closer) (ns : List Node) (y : Bytes)
    (e : Cursor) : Prop :=
  ∃ body, Derives r (.sequence mode closer e body) ∧ body.before.rest = y ∧
    Node.skeletons keep body.nodes = ns

/-- At what closes it, a sequence is at its end. -/
theorem rereads_stop {k : Token.Kind} {e : Cursor} (hy : closer.Closes y)
    (hclosed : closer = .document ∨ closer.pass k = none) (he : e.rest = y) :
    Rereads r keep mode closer [] y e := by
  obtain ⟨t, d, htoken, hends⟩ := hy.token hclosed he
  exact ⟨_, .stop htoken hends, he, rfl⟩

theorem pass_white {k : Token.Kind} {w : Bytes} (hk : k = .space w ∨ k = .parbreak w) :
    closer.pass k = some closer := by
  rcases hk with rfl | rfl <;> cases closer <;> rfl

/-- White space in front of a sequence belongs to it. -/
theorem Rereads.white {e : Cursor} {w z : Bytes} (h : ∀ e, e.rest = z → Rereads r keep mode closer ns y e)
    (hw : ink w = []) (hz : z.head?.any isBlank = false)
    (hpercent : z.head? = some Byte.percent → w.count Byte.newline ≠ 0) (he : e.rest = w ++ z) :
    Rereads r keep mode closer ns y e := by
  by_cases hne : w = []
  · exact h e (by simpa [hne] using he)
  obtain ⟨t, d, htoken, hk, hd⟩ := Cursor.token_blank hne hw hz hpercent he
  obtain ⟨body, hbody, hbefore, hskeleton⟩ := h d hd
  obtain ⟨l, hl, hspace⟩ : ∃ l, plainLeaf? mode t.kind = some l ∧
      (Node.leaf ⟨e.pos, d.pos⟩ {} l).isSpace = true := by
    rcases hk with hk | hk <;> rw [hk] <;> exact ⟨_, rfl, rfl⟩
  have hmore : t.kind ≠ .endOfInput := by
    rcases hk with hk | hk <;> rw [hk] <;> simp
  refine ⟨_, .next htoken (pass_white hk) hmore (.leaf htoken hl) hbody, hbefore, ?_⟩
  rw [link_of_isSpace hspace, Node.skeletons, if_pos hspace, hskeleton]

theorem link_of_code {n : Node} (h : n.comment? = none) (ns : List Node) : link n ns = n :: ns := by
  unfold link
  split
  · cases h
  · rfl

/-- A node in front of a sequence belongs to it. -/
theorem Rereads.node {e d d' : Cursor} {t : Token} {later : Closer} {n : Node}
    (htoken : e.token = .ok (t, d)) (hpass : closer.pass t.kind = some later)
    (hmore : t.kind ≠ .endOfInput) (hitem : Derives r (.item mode e n d')) (hsolid : n.isSpace = false)
    (hcode : n.comment? = none) (hrest : Rereads r keep mode later ns y d') :
    Rereads r keep mode closer (n.skeleton keep :: ns) y e := by
  obtain ⟨body, hbody, hbefore, hskeleton⟩ := hrest
  refine ⟨_, .next htoken hpass hmore hitem hbody, hbefore, ?_⟩
  rw [link_of_code hcode, Node.skeletons, hsolid, hskeleton]
  rfl

theorem append_split {s z pre u : Bytes} (h : s ++ z = pre ++ u) (hpre : ink pre = [])
    (hz : z.head?.any isBlank = false) : ∃ s', s = pre ++ s' ∧ u = s' ++ z := by
  rcases List.append_eq_append_iff.1 h with ⟨v, rfl, rfl⟩ | ⟨v, rfl, rfl⟩
  · cases v with
    | nil => exact ⟨[], by simp, by simp⟩
    | cons b v =>
      have hb := Bytes.ink_eq_nil_iff.1 hpre b (by simp)
      simp [hb] at hz
  · exact ⟨v, rfl, rfl⟩

/-- A comment in front of a sequence belongs to it. What is read after it may begin behind some of the
    white space there. -/
theorem Rereads.comment {e : Cursor} {w content s : Bytes}
    (h : ∀ pre s' e', s = pre ++ s' → ink pre = [] → e'.rest = s' ++ y → Rereads r keep mode closer ns y e')
    (hw : ink w = []) (hends : Cursor.LineEnds content s) (hy : y.head?.any isBlank = false)
    (he : e.rest = w ++ Byte.percent :: (content ++ s) ++ y) :
    Rereads r keep mode closer
      (.leaf {} {} (.comment { content := content.trimEnd isLineBlank } false) :: ns) y e := by
  have hends' : Cursor.LineEnds content (s ++ y) := by
    refine ⟨hends.oneLine, ?_⟩
    rcases hends.breaks with ⟨rest, rfl, hlast⟩ | ⟨rest, rfl⟩
    · exact .inl ⟨rest ++ y, rfl, hlast⟩
    · exact .inr ⟨rest ++ y, rfl⟩
  -- Blanks without a newline belong to the comment, other white space is a node of its own.
  have hcomment {w : Bytes} {e : Cursor} (hw : ink w = []) (hcount : w.count Byte.newline = 0)
      (he : e.rest = w ++ Byte.percent :: (content ++ (s ++ y))) :
      Rereads r keep mode closer
        (.leaf {} {} (.comment { content := content.trimEnd isLineBlank } false) :: ns) y e := by
    obtain ⟨t, d, comment, pre, htoken, hkind, hcontent, hsplit, hpre⟩ :=
      Cursor.token_comment hw hcount hends' he
    obtain ⟨s', hs, hd⟩ := append_split hsplit hpre hy
    obtain ⟨body, hbody, hbefore, hskeleton⟩ := h pre s' d hs hpre hd
    have hpass : closer.pass t.kind = some closer := by
      rw [hkind]
      cases closer <;> rfl
    have hplain : plainLeaf? mode t.kind = some (.comment comment false) := by rw [hkind]; rfl
    refine ⟨_, .next htoken hpass (by simp [hkind]) (.leaf htoken hplain) hbody, hbefore, ?_⟩
    rw [link, Node.skeletons, if_neg (by simp [Node.isSpace]), hskeleton, Node.skeleton, Leaf.skeleton, hcontent]
  by_cases hcount : w.count Byte.newline = 0
  · exact hcomment hw hcount (by simpa using he)
  · exact Rereads.white (z := Byte.percent :: (content ++ (s ++ y)))
      (fun e' he' => hcomment (w := []) rfl rfl he') hw rfl (fun _ => hcount) (by simpa using he)

/-! ## the invariant -/

/-- A token that ends a sequence only where the other one does. -/
def Like (k k' : Token.Kind) : Prop :=
  k' = k ∨ k = .dollars ∧ k' = .dollar

theorem Like.pass {k k' : Token.Kind} {closer later : Closer} (h : Like k k')
    (hpass : closer.pass k = some later) : closer.pass k' = some later := by
  rcases h with rfl | ⟨rfl, rfl⟩
  · exact hpass
  · cases closer <;> first | exact hpass | cases hpass

/-- From the place `e` on, a node can be read that has the structure of `n` and ends in front of `y`. It
    begins with a token like the one at `c`. -/
def ItemAgain (r : Registry) (keep : Bool) (mode : Mode) (c : Cursor) (n : Node) (y : Bytes)
    (e : Cursor) : Prop :=
  ∃ n' d', Derives r (.item mode e n' d') ∧ d'.rest = y ∧ n'.skeleton keep = n.skeleton keep ∧
    ∀ {t d}, c.token = .ok (t, d) → ∃ t' d', e.token = .ok (t', d') ∧ Like t.kind t'.kind

/-- From the place `e` on, arguments can be read that have the structure of `args` and end in front of
    `y`. -/
def ArgumentsAgain (r : Registry) (keep : Bool) (mode : Mode) (kinds : List ArgKind) (args : List Node)
    (y : Bytes) (e : Cursor) : Prop :=
  ∃ args' d', Derives r (.arguments mode kinds e args' d') ∧ d'.rest = y ∧
    Node.skeletons keep args' = Node.skeletons keep args

/-- White space that was read right before a place. -/
inductive Pending (c : Cursor) : List Node → Prop
  | none : Pending c []
  | one {n : Node} (space : n.isSpace = true) (white : ink n.raw = [])
      (solid : c.rest.head?.any isBlank = false)
      (broken : 2 ≤ n.raw.count Byte.newline → n.isParbreak = true) : Pending c [n]

/-- Whatever is a spelling of what was read can be read, and has the same structure. The text `y` behind
    the spelling has to keep what stood behind the source from being taken for more of it. -/
def Judgement.Respells (r : Registry) (keep : Bool) : Judgement → Prop
  | .item mode c n d => n.isSpace = false → n.comment? = none → ∀ {t y},
      Spells r keep (.node (n.annotate r)) t → ((n.before r).sticky = true → Follows d.rest y) →
      (n.isHungry r = true → feeds r d.rest = false → feeds r y = false) →
      ∀ {e : Cursor}, e.rest = t ++ y → ItemAgain r keep mode c n y e
  | .arguments mode kinds c args d => ∀ {t y},
      Spells r keep (.args (Node.annotateAll r args)) t → Follows d.rest y →
      (ArgKind.isHungry kinds args = true → feeds r d.rest = false → feeds r y = false) →
      Follows c.rest (t ++ y) ∧
        ∀ {e : Cursor}, e.rest = t ++ y → ArgumentsAgain r keep mode kinds args y e
  | .sequence mode closer c body => ∀ pend {b s y}, Pending c pend →
      closer = .document ∨ body.isOpen = false → closer.Closes y →
      Spells r keep (.nodes b (Node.annotateAll r (pend ++ body.nodes))) s →
      (b.sticky = true → Follows (Node.rawAll pend ++ c.rest) (s ++ y)) ∧
      (b.hungry = true → feeds r (Node.rawAll pend ++ c.rest) = false → feeds r (s ++ y) = false) ∧
      (closer = .dollar → s ≠ [] → s.head? ≠ some Byte.dollar) ∧
      ∀ (pre : Bytes) {s' : Bytes} {e : Cursor}, s = pre ++ s' → ink pre = [] → e.rest = s' ++ y →
        Rereads r keep mode closer (Node.skeletons keep body.nodes) y e

/-! ## sequences -/

section

variable {c : Cursor} {pend : List Node} {w : Bytes}

theorem Pending.spaces (h : Pending c pend) : ∀ u ∈ pend, u.isSpace = true := by
  cases h with
  | none => simp
  | one space => simpa using space

theorem Pending.annotated (h : Pending c pend) : ∀ u ∈ Node.annotateAll r pend, u.isSpace = true :=
  Node.isSpace_annotateAll r h.spaces

theorem Pending.white (h : Pending c pend) : ink (Node.rawAll pend) = [] := by
  cases h with
  | none => rfl
  | one space white => simpa using white

/-- Two newlines are a paragraph break. -/
theorem Pending.broken (h : Pending c pend) (hcount : 2 ≤ (Node.rawAll pend).count Byte.newline) :
    ∃ u ∈ Node.annotateAll r pend, u.isParbreak = true := by
  cases h with
  | none => simp at hcount
  | @one n space white solid broken =>
    exact ⟨n.annotate r, by simp [Node.annotateAll], by simpa using broken (by simpa using hcount)⟩

theorem isStop_of_isBlank {b : UInt8} (h : isBlank b = true) : isStop b = true := by
  simp only [isStop, h, Bool.true_or, Bool.true_and, bne_iff_ne]
  rintro rfl
  cases h

/-- White space is a stop. -/
theorem follows_white (x : Bytes) {z : Bytes} (hw : ink w = []) (hne : w ≠ []) : Follows x (w ++ z) := by
  obtain ⟨b, w, rfl⟩ := List.exists_cons_of_ne_nil hne
  exact .of_isStop x (isStop_of_isBlank (Bytes.ink_eq_nil_iff.1 hw b (by simp)))

theorem head?_ne_of_white {a : UInt8} {z : Bytes} (hw : ink w = []) (hne : w ≠ [])
    (ha : isBlank a = false) : (w ++ z).head? ≠ some a := by
  obtain ⟨b, w, rfl⟩ := List.exists_cons_of_ne_nil hne
  rintro h
  cases h
  rw [Bytes.ink_eq_nil_iff.1 hw a (by simp)] at ha
  cases ha

theorem respells_stop {t : Token} {d : Cursor}
    (closed : closer.pass t.kind = none ∨ t.kind = .endOfInput) :
    (Judgement.sequence mode closer c ⟨[], t, c, d⟩).Respells r keep := by
  intro pend b s y hpend hopen hy hs
  rw [List.append_nil] at hs
  have hwhite : ink s = [] := hs.white hpend.annotated
  have hclosed : closer = .document ∨ closer.pass t.kind = none := by
    rcases hopen with hdocument | hopen
    · exact .inl hdocument
    · refine .inr (closed.resolve_right fun hend => ?_)
      simp [Sequence.isOpen, hend] at hopen
  refine ⟨fun _ => ?_, fun _ _ => ?_, fun _ hne => ?_, @fun pre s' e hsplit hpre he => ?_⟩
  · by_cases hne : s = []
    · subst hne
      exact .of_isStop _ hy.stop
    · exact follows_white _ hwhite hne
  · rw [feeds_append hwhite hy.solid, hy.inert, Bool.and_false]
  · simpa using head?_ne_of_white (z := []) hwhite hne (by decide)
  · rw [hsplit] at hwhite
    exact Rereads.white (fun e he => rereads_stop hy hclosed he) (Bytes.ink_of_append hwhite) hy.solid
      (fun h => absurd h hy.code) he

variable {later : Closer} {t : Token} {d e : Cursor} {n : Node} {tail : Sequence}

theorem kind_of_plainLeaf?_space {k : Token.Kind} {l : Leaf} {span : Span} {h : Hints}
    (plain : plainLeaf? mode k = some l) (space : (Node.leaf span h l).isSpace = true) :
    ∃ raw, k = .space raw ∧ l = .space raw ∨ k = .parbreak raw ∧ l = .parbreak raw := by
  rcases plainLeaf?_cases plain with rfl | ⟨raw, hl⟩ | ⟨raw, hl⟩ | ⟨c, -, rfl⟩
  · cases space
  · exact ⟨raw, .inl hl⟩
  · exact ⟨raw, .inr hl⟩
  · cases space

/-- White space that was read ends in front of something else. -/
theorem pending_of_isSpace (token : c.token = .ok (t, d)) (head : Derives r (.item mode c n e))
    (space : n.isSpace = true) :
    Pending e [n] ∧ c.rest.head?.any isBlank = true ∧
      ∀ closer : Closer, closer.pass t.kind = some closer := by
  cases head with
  | @leaf _ _ t' _ l token' plain =>
    cases token.symm.trans token'
    obtain ⟨raw, hl⟩ := kind_of_plainLeaf?_space plain space
    have hkind : t.kind = .space raw ∨ t.kind = .parbreak raw := hl.imp And.left And.left
    have hraw : (Node.leaf ⟨c.pos, d.pos⟩ {} l).raw = raw := by
      rcases hl with ⟨-, rfl⟩ | ⟨-, rfl⟩ <;> simp [Node.raw_leaf, Leaf.raw, Leaf.rawPieces]
    obtain ⟨htake, hblank, hbreak⟩ := Token.white_of_scan? (Cursor.scan?_of_token token) hkind
    refine ⟨.one space ?_ (Cursor.solid_of_white token hkind) fun hcount => ?_, hblank,
      fun closer => pass_white hkind⟩
    · rw [hraw, ← htake]
      exact Token.ink_takeWhile (fun _ h => h) _
    · rw [hraw] at hcount
      rcases hl with ⟨hk, rfl⟩ | ⟨-, rfl⟩
      · cases hk.symm.trans (hbreak hcount)
      · rfl
  | script | group | formula | dollar | emptyDollars | verbatim | verb | command => cases space
  | environment =>
    unfold environmentShape at space
    split at space <;> cases space

/-- A comment is the comment of its token. -/
theorem kind_of_comment {comment : Comment} (token : c.token = .ok (t, d))
    (head : Derives r (.item mode c n e)) (hcomment : n.comment? = some comment) :
    t.kind = .comment comment ∧ d = e := by
  cases head with
  | @leaf _ _ t' _ l token' plain =>
    cases token.symm.trans token'
    cases l with
    | comment comment' before =>
      cases hcomment
      exact ⟨kind_of_plainLeaf?_comment plain, rfl⟩
    | _ => cases hcomment
  | script | group | formula | dollar | emptyDollars | verbatim | verb | command => cases hcomment
  | environment =>
    unfold environmentShape at hcomment
    split at hcomment <;> cases hcomment

/-- A dollar sign is a token of its own, or half of one. -/
theorem closes_of_dollar (token : c.token = .ok (t, d)) (h : c.rest.head? = some Byte.dollar) :
    Closer.dollar.pass t.kind = none := by
  obtain ⟨s, hs⟩ := List.head?_eq_some_iff.1 h
  have hscan := Cursor.scan?_of_token token
  rw [hs] at hscan
  have hkind : t.kind = Token.scanDollar s := (Option.some.inj hscan).symm
  rcases Token.scanDollar_cases s with hk | hk <;>
  · rw [hkind, hk]
    rfl

theorem document_of_pass {k : Token.Kind} (pass : closer.pass k = some later)
    (hopen : closer = .document ∨ tail.isOpen = false) : later = .document ∨ tail.isOpen = false := by
  refine hopen.imp_left fun hdocument => ?_
  rw [hdocument] at pass
  exact (Option.some.inj pass).symm

theorem respells_space (token : c.token = .ok (t, d)) (pass : closer.pass t.kind = some later)
    (head : Derives r (.item mode c n e)) (space : n.isSpace = true)
    (ih : (Judgement.sequence mode later e tail).Respells r keep) :
    (Judgement.sequence mode closer c { tail with nodes := link n tail.nodes }).Respells r keep := by
  intro pend b s y hpend hopen hy hs
  obtain ⟨hnext, hblank, hpass⟩ := pending_of_isSpace token head space
  have hlater : later = closer := by
    rw [hpass closer] at pass
    exact (Option.some.inj pass).symm
  subst hlater
  cases hpend with
  | one _ _ solid =>
    rw [hblank] at solid
    cases solid
  | none =>
    have hnodes : ({ tail with nodes := link n tail.nodes } : Sequence).nodes = n :: tail.nodes :=
      link_of_isSpace space _
    rw [hnodes] at hs ⊢
    have htext := (head.moves.1).text
    rw [Node.skeletons, if_pos space]
    simpa [htext] using ih _ hnext hopen hy hs

theorem respells_comment {comment : Comment} (pass : closer.pass t.kind = some later)
    (hkind : t.kind = .comment comment) (hcomment : n.comment? = some comment)
    (ih : (Judgement.sequence mode later e tail).Respells r keep) :
    (Judgement.sequence mode closer c { tail with nodes := link n tail.nodes }).Respells r keep := by
  intro pend b s y hpend hopen hy hs
  have hlater : later = closer := by
    rw [hkind] at pass
    cases closer <;> exact (Option.some.inj pass).symm
  subst hlater
  obtain ⟨span, h, before, rfl⟩ := Node.exists_of_comment? hcomment
  rw [link, Node.annotateAll_append, Node.annotateAll] at hs
  obtain ⟨w, content, s', rfl, hw, hsame, hends, hrest⟩ := hs.remark hpend.annotated rfl
  obtain ⟨-, -, -, hreads⟩ := ih [] .none hopen hy hrest
  have hhead : (Byte.percent :: (content ++ s')).head?.any isBlank = false := rfl
  refine ⟨fun _ => ?_, fun _ _ => ?_, fun _ _ => ?_, @fun pre s'' e' hsplit hpre he' => ?_⟩
  · by_cases hne : w = []
    · subst hne
      exact .of_isStop _ rfl
    · simpa using follows_white (z := Byte.percent :: (content ++ s') ++ y) _ hw hne
  · rw [List.append_assoc, feeds_append hw rfl, List.cons_append,
      beginsArgument_text rfl (by decide) (by decide)]
    simp [isActive]
  · by_cases hne : w = []
    · subst hne
      exact fun h => by cases h
    · exact head?_ne_of_white hw hne (by decide)
  · obtain ⟨w', rfl, rfl⟩ := append_split hsplit hpre hhead
    rw [link, Node.skeletons, if_neg (by simp [Node.isSpace]), Node.skeleton, Leaf.skeleton, ← hsame]
    exact Rereads.comment (fun pre s' e' h h' h'' => hreads pre h h' h'') (Bytes.ink_of_append hw) hends
      hy.solid he'

/-- White space goes where a sticky node needs it, so nothing is taken for more of that node. -/
theorem follows_gap {b : Before} {x z : Bytes} (gap : Gap b (Node.annotateAll r pend) w (n.annotate r))
    (hsticky : b.sticky = true) (h : Follows x z) : Follows (Node.rawAll pend ++ x) (w ++ z) := by
  by_cases hw : w = []
  · cases pend with
    | nil =>
      rw [hw]
      exact h
    | cons p ps =>
      rw [gap.kept (by simp [Node.annotateAll]) hw] at hsticky
      cases hsticky
  · exact follows_white _ gap.white hw

/-- The first byte of a node follows what it followed in the source. -/
theorem Begins.follows_again {a : UInt8} {u z : Bytes} (h : Begins c e u a)
    (head : Derives r (.item mode c n e)) (hz : (n.before r).sticky = true → Follows e.rest z) :
    Follows c.rest (u ++ z) := by
  refine h.follows fun htail => hz ?_
  cases hline : n.isLineEnd r with
  | false => simp [Node.before, hline]
  | true =>
    obtain ⟨-, -, hrest⟩ := head.lineEnd hline
    have hfirst := h.source
    rw [hrest] at hfirst
    cases hfirst
    cases htail

/-- A node that was no argument of what stands before it does not become one. -/
theorem feeds_gap {b : Before} {a : UInt8} {u z : Bytes}
    (gap : Gap b (Node.annotateAll r pend) w (n.annotate r)) (hpend : Pending c pend)
    (hhungry : b.hungry = true) (hbegins : Begins c e u a) (head : Derives r (.item mode c n e))
    (hsolid : n.isSpace = false) (hagain : ItemAgain r keep mode c n z ⟨0, false, u ++ z⟩)
    (hsource : feeds r (Node.rawAll pend ++ c.rest) = false) : feeds r (w ++ (u ++ z)) = false := by
  obtain ⟨n', d', hitem, -, hskeleton, -⟩ := hagain
  have hsolid' : n'.isSpace = false := by
    rw [← Node.isSpace_skeleton, hskeleton, Node.isSpace_skeleton, hsolid]
  rw [feeds_append gap.white (by rw [List.head?_append, hbegins.spelled]; exact hbegins.solid),
    hitem.beginsArgument hsolid', ← Node.isEdible_skeleton, hskeleton, Node.isEdible_skeleton]
  rw [feeds_append hpend.white (by rw [hbegins.source]; exact hbegins.solid),
    show Parse.beginsArgument r ⟨0, false, c.rest⟩ = n.isEdible from head.beginsArgument hsolid] at hsource
  cases hedible : n.isEdible with
  | false => rw [Bool.and_false]
  | true =>
    rw [hedible, Bool.and_true, decide_eq_false_iff_not] at hsource
    have hcount := gap.broken hhungry (by simpa using hedible) (hpend.broken (by omega))
    simp only [Bool.and_true, decide_eq_false_iff_not]
    omega

/-- A node that can be read again is read at the head of a sequence. -/
theorem ItemAgain.rereads {e' : Cursor} {ns : List Node} {y z : Bytes} (h : ItemAgain r keep mode c n z e')
    (token : c.token = .ok (t, d)) (pass : closer.pass t.kind = some later) (more : t.kind ≠ .endOfInput)
    (hsolid : n.isSpace = false) (hcode : n.comment? = none)
    (hrest : ∀ {d' : Cursor}, d'.rest = z → Rereads r keep mode later ns y d') :
    Rereads r keep mode closer (n.skeleton keep :: ns) y e' := by
  obtain ⟨n', d', hitem, hd', hskeleton, htoken⟩ := h
  obtain ⟨t', d'', htoken', hlike⟩ := htoken token
  rw [← hskeleton]
  refine Rereads.node htoken' (hlike.pass pass) ?_ hitem ?_ ?_ (hrest hd')
  · rcases hlike with h | ⟨-, h⟩
    · rw [h]
      exact more
    · simp [h]
  · rw [← Node.isSpace_skeleton, hskeleton, Node.isSpace_skeleton, hsolid]
  · exact Node.comment?_skeleton.1 (hskeleton ▸ Node.comment?_skeleton.2 hcode)

theorem respells_code (token : c.token = .ok (t, d)) (pass : closer.pass t.kind = some later)
    (more : t.kind ≠ .endOfInput) (head : Derives r (.item mode c n e)) (hsolid : n.isSpace = false)
    (hcode : n.comment? = none) (ihHead : (Judgement.item mode c n e).Respells r keep)
    (ihRest : (Judgement.sequence mode later e tail).Respells r keep) :
    (Judgement.sequence mode closer c { tail with nodes := link n tail.nodes }).Respells r keep := by
  intro pend b s y hpend hopen hy hs
  have hnodes : ({ tail with nodes := link n tail.nodes } : Sequence).nodes = n :: tail.nodes :=
    link_of_code hcode _
  rw [hnodes] at hs ⊢
  rw [Node.annotateAll_append, Node.annotateAll] at hs
  obtain ⟨w, u, s', rfl, gap, hnode, hrest⟩ := hs.code hpend.annotated (by simpa using hsolid)
    (by simpa using hcode)
  obtain ⟨hfollows, hfeeds, -, hreads⟩ :=
    ihRest [] .none (document_of_pass pass hopen) (hy.pass pass) hrest
  obtain ⟨a, hbegins⟩ := head.begins hsolid hcode hnode
  have hagain {e' : Cursor} (he' : e'.rest = u ++ (s' ++ y)) : ItemAgain r keep mode c n (s' ++ y) e' := by
    refine ihHead hsolid hcode hnode (fun h => hfollows ?_) (fun hhungry hsource => hfeeds ?_ hsource) he'
    · simpa [Node.before] using h
    · exact (Node.isHungry_annotate r n).trans hhungry
  have hhead : (u ++ (s' ++ y)).head? = some a := by
    rw [List.head?_append, hbegins.spelled]
    rfl
  have hsolid' : (u ++ (s' ++ y)).head?.any isBlank = false := by
    rw [hhead]
    exact hbegins.solid
  refine ⟨fun hsticky => ?_, fun hhungry hsource => ?_, fun hdollar hne => ?_,
    @fun pre s'' e' hsplit hpre he' => ?_⟩
  · rw [List.append_assoc, List.append_assoc]
    exact follows_gap gap hsticky
      (hbegins.follows_again head fun h => hfollows (by simpa [Node.before] using h))
  · rw [List.append_assoc, List.append_assoc]
    exact feeds_gap gap hpend hhungry hbegins head hsolid (hagain rfl) hsource
  · by_cases hw : w = []
    · subst hw hdollar
      rw [List.nil_append, List.head?_append, hbegins.spelled]
      rintro h
      cases h
      rw [closes_of_dollar token hbegins.source] at pass
      cases pass
    · simpa using head?_ne_of_white (z := u ++ s') gap.white hw (by decide)
  · obtain ⟨w', rfl, rfl⟩ := append_split (s := w) (z := u ++ s') (by simpa using hsplit) hpre (by
      rw [List.head?_append, hbegins.spelled]
      exact hbegins.solid)
    rw [Node.skeletons, if_neg (by simp [hsolid])]
    refine Rereads.white (z := u ++ (s' ++ y)) (fun e'' he'' => ?_) (Bytes.ink_of_append gap.white) hsolid'
      (fun h => ?_) (by simpa using he')
    · exact (hagain he'').rereads token pass more hsolid hcode (hreads [] rfl rfl)
    · rw [hhead] at h
      exact absurd (Option.some.inj h) hbegins.code

end

/-! ## nodes -/

section

variable {c d e : Cursor} {t : Token} {body : Sequence} {args : List Node}

theorem like_of_token {t' : Token} {d' : Cursor} (token : c.token = .ok (t, d))
    (htoken : e.token = .ok (t', d')) (hlike : Like t.kind t'.kind) {t₀ : Token} {d₀ : Cursor}
    (h : c.token = .ok (t₀, d₀)) : ∃ t' d', e.token = .ok (t', d') ∧ Like t₀.kind t'.kind := by
  cases token.symm.trans h
  exact ⟨t', d', htoken, hlike⟩

/-- A sequence that ends in front of its closing is closed by it. -/
theorem closed_of_rereads {closing : Bytes} (hbody : Derives r (.sequence mode closer e body))
    (hbefore : body.before.rest = closing ++ y) (hne : closing ≠ [])
    (hclosing : ∀ k, closer.Ends k → k.raw = closing) :
    body.isOpen = false ∧ body.cursor.rest = y := by
  obtain ⟨-, hlast, hends⟩ := hbody.moves
  have hends : closer.Ends body.last.kind := by
    refine hends.resolve_left fun h => ?_
    rw [h.2] at hbefore
    exact hne (List.append_eq_nil_iff.1 hbefore.symm).1
  have hraw := hclosing _ hends
  refine ⟨?_, ?_⟩
  · rw [Sequence.isOpen, decide_eq_false_iff_not]
    intro hkind
    rw [hkind] at hraw
    exact hne hraw.symm
  · rw [hlast.text, hraw] at hbefore
    exact List.append_cancel_left hbefore

theorem noArgs_of_spells {s : Bytes} (h : Spells r keep (.args []) s) : s = [] := by
  cases h
  rfl

theorem respells_text {content : Bytes} {span : Span} (token : c.token = .ok (t, d))
    (plain : plainLeaf? mode t.kind = some (.text content)) :
    (Judgement.item mode c (.leaf span {} (.text content)) d).Respells r keep := by
  intro _ _ s y hs hfollows _ e he
  cases hs
  have hraw := raw_plainLeaf? plain
  rw [show (Leaf.text content).raw = content by simp [Leaf.raw, Leaf.rawPieces]] at hraw
  have hlexeme : t.kind.isLexeme = true := by
    cases hk : t.kind <;> rw [hk] at plain <;> first | rfl | cases plain
  obtain ⟨t', d', htoken, hkind, hd'⟩ := Cursor.token_append token hlexeme (hfollows rfl) (hraw ▸ he)
  exact ⟨_, d', .leaf htoken (hkind ▸ plain), hd', rfl, like_of_token token htoken (.inl hkind)⟩

theorem respells_script {char : UInt8} {span : Span} (token : c.token = .ok (t, d))
    (kind : t.kind = .symbol char) (sign : char = Byte.caret ∨ char = Byte.underscore)
    (ih : (Judgement.arguments .math [.mandatory] d args e).Respells r keep) :
    (Judgement.item .math c (.branch span {} (.command [] [char]) args []) e).Respells r keep := by
  intro _ _ s y hs hfollows hhungry e' he'
  cases hs with
  | container kind => cases kind
  | command taken =>
    obtain ⟨hafter, hagain⟩ := ih taken (hfollows (by simp [Node.before, Node.isLineEnd])) hhungry
    obtain ⟨t', d', htoken, hkind, hd'⟩ := Cursor.token_append token (by rw [kind]; rfl) hafter
      (by rw [kind, he']; simp [Token.Kind.raw])
    obtain ⟨args', e'', hargs, he'', hskeleton⟩ := hagain hd'
    refine ⟨_, e'', .script htoken (hkind.trans kind) sign hargs, he'', ?_,
      like_of_token token htoken (.inl hkind)⟩
    simp only [Node.skeleton, hskeleton]

/-- A command that is named by the end of its line is read again whatever comes after it. -/
theorem respells_lineEnd {span : Span} (token : c.token = .ok (t, d))
    (kind : t.kind = .command [Byte.newline]) (known : r.isVerb [Byte.newline] = false)
    (hargs : commandArgs r [Byte.newline] = []) :
    (Judgement.item mode c (.branch span {} (.command escape [Byte.newline]) [] []) d).Respells r keep := by
  intro _ _ s y hs _ _ e' he'
  cases hs with
  | container kind => cases kind
  | command taken =>
    cases noArgs_of_spells taken
    obtain ⟨t', d', htoken, hkind, hd'⟩ := Cursor.token_of_scan? (c := e') (k := .command [Byte.newline])
      (y := y) (by rw [he']; simp [Token.Kind.raw, escape]) (by rw [he']; rfl)
    refine ⟨_, d', .command htoken hkind known (by decide) (hargs ▸ .done), hd', rfl,
      like_of_token token htoken (.inl ?_)⟩
    rw [hkind, kind]

theorem respells_command {name : Bytes} {span : Span} (token : c.token = .ok (t, d))
    (kind : t.kind = .command name) (known : r.isVerb name = false) (free : isDelimiter name = false)
    (taken : Derives r (.arguments (commandMode r name mode) (commandArgs r name) d args e))
    (ih : (Judgement.arguments (commandMode r name mode) (commandArgs r name) d args e).Respells r keep) :
    (Judgement.item mode c (.branch span {} (.command escape name) args []) e).Respells r keep := by
  by_cases hline : name = [Byte.newline] ∧ commandArgs r name = []
  · obtain ⟨rfl, hargs⟩ := hline
    rw [hargs] at taken
    cases taken
    exact respells_lineEnd token kind known hargs
  intro _ _ s y hs hfollows hhungry e' he'
  cases hs with
  | container kind => cases kind
  | command spelled =>
    have hfollows := hfollows (by
      rw [Node.before, Bool.not_eq_true']
      refine Bool.eq_false_iff.2 fun hend => ?_
      obtain ⟨hname, hargs⟩ := Bool.and_eq_true_iff.1 hend
      cases Option.some.inj (beq_iff_eq.1 hname)
      exact hline ⟨rfl, List.isEmpty_iff.1 hargs⟩)
    obtain ⟨hafter, hagain⟩ := ih spelled hfollows hhungry
    obtain ⟨t', d', htoken, hkind, hd'⟩ := Cursor.token_append token (by rw [kind]; rfl) hafter
      (by rw [kind, he']; simp [Token.Kind.raw, escape])
    obtain ⟨args', e'', hargs, he'', hskeleton⟩ := hagain hd'
    refine ⟨_, e'', .command htoken (hkind.trans kind) known free hargs, he'', ?_,
      like_of_token token htoken (.inl hkind)⟩
    simp only [Node.skeleton, hskeleton]

theorem respells_verb {name star marker text : Bytes} {stop : Cursor} {span : Span}
    (token : c.token = .ok (t, d)) (kind : t.kind = .command name) (known : r.isVerb name = true)
    (free : isDelimiter name = false) (starred : d.Reads star e)
    (star_eq : star = [] ∨ star = [Byte.star] ∧ name = bytes "verb")
    (content : e.delimited = .ok ((marker, text), stop)) :
    (Judgement.item mode c (.leaf span {} (.verb escape (name ++ star) marker text)) stop).Respells r
      keep := by
  intro _ _ s y hs hfollows _ e' he'
  cases hs
  have htext : d.rest = star ++ (marker ++ text ++ marker) ++ stop.rest := by
    rw [starred.text, (Cursor.delimited_reads content).text]
    simp only [List.append_assoc]
  have hafter := (hfollows rfl).append (star ++ (marker ++ text ++ marker))
  rw [← htext] at hafter
  obtain ⟨t', d', htoken, hkind, hd'⟩ := Cursor.token_append token (by rw [kind]; rfl) hafter
    (by rw [kind, he']; simp [Token.Kind.raw, escape])
  have hstar := Cursor.reads_of_rest (hd'.trans (List.append_assoc ..))
  have hrest : (d'.advance star.length).rest = marker ++ text ++ marker ++ y := by
    simp [hd']
  obtain ⟨stop', hstop, hrest'⟩ := Cursor.delimited_append content hrest
  exact ⟨_, stop', .verb htoken (hkind.trans kind) known free hstar star_eq hstop, hrest', rfl,
    like_of_token token htoken (.inl hkind)⟩

theorem respells_group {span : Span} (token : c.token = .ok (t, d)) (kind : t.kind = .openBrace)
    (closed : body.isOpen = false) (ih : (Judgement.sequence mode .brace d body).Respells r keep) :
    (Judgement.item mode c (.branch span {} .group [] body.nodes) body.cursor).Respells r keep := by
  intro _ _ s y hs _ _ e he
  cases hs with
  | @container _ _ _ _ _ s₀ u _ taken inside apart =>
    cases noArgs_of_spells taken
    have hy : Closer.brace.Closes ([Byte.closeBrace] ++ y) := rfl
    obtain ⟨-, -, -, hreads⟩ := ih [] .none (.inr closed) hy inside
    obtain ⟨t', d', htoken, hkind, hd'⟩ := Cursor.token_of_scan? (c := e) (k := .openBrace)
      (y := u ++ ([Byte.closeBrace] ++ y)) (by rw [he]; simp [Shape.opening, Shape.closing, Token.Kind.raw])
      (by rw [he]; rfl)
    obtain ⟨body', hbody, hbefore, hskeleton⟩ := hreads [] rfl rfl hd'
    obtain ⟨hclosed, hcursor⟩ := closed_of_rereads hbody hbefore (by decide) (by rintro k rfl; rfl)
    refine ⟨_, _, .group htoken hkind hbody hclosed, hcursor, ?_,
      like_of_token token htoken (.inl ?_)⟩
    · simp only [Node.skeleton, hskeleton]
    · rw [hkind, kind]

/-- What opens a formula is a token whatever comes after it. -/
theorem scan?_formula {k : Token.Kind} {shape : Shape} (kind : formula? k = some (closer, shape))
    (i : Bool) (z : Bytes) : Token.scan? i (k.raw ++ z) = some k := by
  rcases formula?_cases kind with ⟨rfl, -⟩ | ⟨rfl, -⟩ | ⟨rfl, -⟩ <;> rfl

/-- What closes a formula. -/
theorem closes_formula {k : Token.Kind} {shape : Shape} (kind : formula? k = some (closer, shape))
    (y : Bytes) :
    closer.Closes (shape.closing ++ y) ∧ shape.closing ≠ [] ∧
      (∀ k', closer.Ends k' → k'.raw = shape.closing) ∧
      ∀ r args, shape.before r args = {} := by
  have hraw {k'} (h : closer.Ends k') := (raw_formula? kind h).2.symm
  rcases formula?_cases kind with ⟨-, rfl, rfl⟩ | ⟨-, rfl, rfl⟩ | ⟨-, rfl, rfl⟩
  · exact ⟨⟨y, rfl⟩, by decide, fun _ h => hraw h, fun _ _ => rfl⟩
  · exact ⟨⟨.inl rfl, y, rfl⟩, by decide, fun _ h => hraw h, fun _ _ => rfl⟩
  · exact ⟨⟨.inr rfl, y, rfl⟩, by decide, fun _ h => hraw h, fun _ _ => rfl⟩

theorem respells_formula {shape : Shape} {span : Span} (token : c.token = .ok (t, d))
    (kind : formula? t.kind = some (closer, shape)) (closed : body.isOpen = false)
    (ih : (Judgement.sequence .math closer d body).Respells r keep) :
    (Judgement.item mode c (.branch span {} shape [] body.nodes) body.cursor).Respells r keep := by
  intro _ _ s y hs _ _ e he
  obtain ⟨hshape, hopening, -⟩ := opening_formula? kind
  obtain ⟨hy, hne, hclosing, hbefore⟩ := closes_formula kind y
  cases hs with
  | command => cases hshape
  | verbatim => cases hshape
  | @container _ _ _ _ _ s₀ u _ taken inside apart =>
    cases noArgs_of_spells taken
    rw [hbefore] at inside
    obtain ⟨-, -, -, hreads⟩ := ih [] .none (.inr closed) hy inside
    have hrest : e.rest = t.kind.raw ++ (u ++ (shape.closing ++ y)) := by
      rw [he, hopening]
      simp
    obtain ⟨t', d', htoken, hkind, hd'⟩ := Cursor.token_of_scan? hrest
      (by rw [hrest]; exact scan?_formula kind _ _)
    obtain ⟨body', hbody, hbefore, hskeleton⟩ := hreads [] rfl rfl hd'
    obtain ⟨hclosed, hcursor⟩ := closed_of_rereads hbody hbefore hne hclosing
    refine ⟨_, _, .formula htoken (hkind ▸ kind) hbody hclosed, hcursor, ?_,
      like_of_token token htoken (.inl hkind)⟩
    simp only [Node.skeleton, hskeleton]

/-- A formula between dollar signs ends behind the first one. -/
theorem itemAgain_dollar {n : Node} {u : Bytes}
    (hn : n.skeleton keep = .branch {} {} (.inlineMath [Byte.dollar] [Byte.dollar]) [] ns)
    (token : c.token = .ok (t, d)) (kind : t.kind = .dollar ∨ t.kind = .dollars) (hu : u ≠ [])
    (hhead : u.head? ≠ some Byte.dollar) (he : e.rest = Byte.dollar :: (u ++ Byte.dollar :: y))
    (hreads : ∀ {e' : Cursor}, e'.rest = u ++ Byte.dollar :: y →
      Rereads r keep .math .dollar ns (Byte.dollar :: y) e') :
    ItemAgain r keep mode c n y e := by
  obtain ⟨t', d', htoken, hkind, hd'⟩ := Cursor.token_dollar (y := u ++ Byte.dollar :: y) (by
    obtain ⟨b, u, rfl⟩ := List.exists_cons_of_ne_nil hu
    exact hhead) he
  obtain ⟨body, hbody, hbefore, hskeleton⟩ := hreads hd'
  obtain ⟨hnodes, hlast, hends⟩ := hbody.moves
  have hends : Closer.dollar.Ends body.last.kind := by
    refine hends.resolve_left fun h => ?_
    rw [h.2] at hbefore
    cases hbefore
  have hclosed : body.isOpen = false := by
    rw [Sequence.isOpen, decide_eq_false_iff_not]
    intro hkind
    rw [hkind] at hends
    rcases hends with h | h <;> cases h
  have hstop := half_dollar_reads hends hlast
  refine ⟨_, _, .dollar htoken hkind hbody hclosed rfl, ?_, ?_,
    like_of_token token htoken ?_⟩
  · have htext := hstop.text
    rw [hbefore] at htext
    exact (List.cons.inj htext).2.symm
  · rw [hn, Node.skeleton, hskeleton]
    rfl
  · rw [hkind]
    rcases kind with h | h <;> simp [Like, h]

theorem respells_dollar {span : Span} {stop : Cursor} (token : c.token = .ok (t, d))
    (kind : t.kind = .dollar) (closed : body.isOpen = false)
    (ih : (Judgement.sequence .math .dollar d body).Respells r keep) :
    (Judgement.item mode c (.branch span {} (.inlineMath [Byte.dollar] [Byte.dollar]) [] body.nodes)
      stop).Respells r keep := by
  intro _ _ s y hs _ _ e he
  cases hs with
  | @container _ _ _ _ _ s₀ u _ taken inside apart =>
    cases noArgs_of_spells taken
    have hy : Closer.dollar.Closes (Byte.dollar :: y) := rfl
    obtain ⟨-, -, hhead, hreads⟩ := ih [] .none (.inr closed) hy inside
    refine itemAgain_dollar rfl token (.inl kind) (apart rfl) (hhead rfl (apart rfl)) ?_
      (fun he' => hreads [] rfl rfl he')
    rw [he]
    simp [Shape.opening, Shape.closing]

theorem respells_emptyDollars {span : Span} {stop : Cursor} (token : c.token = .ok (t, d))
    (kind : t.kind = .dollars) :
    (Judgement.item mode c (.branch span {} (.inlineMath [Byte.dollar] [Byte.dollar]) [] [])
      stop).Respells r keep := by
  intro _ _ s y hs _ _ e he
  cases hs with
  | @container _ _ _ _ _ s₀ u _ taken inside apart =>
    cases noArgs_of_spells taken
    have hy : Closer.dollar.Closes (Byte.dollar :: y) := rfl
    have hwhite : ink u = [] := inside.white (by simp [Node.annotateAll])
    refine itemAgain_dollar (u := u) rfl token (.inr kind) (apart rfl) ?_ ?_ fun he' => ?_
    · simpa using head?_ne_of_white (z := []) hwhite (apart rfl) (by decide)
    · rw [he]
      simp [Shape.opening, Shape.closing]
    · exact Rereads.white (fun e he => rereads_stop (k := .dollar) hy (.inr rfl) he) hwhite hy.solid
        (fun h => absurd h hy.code) he'

theorem environmentShape_container (r : Registry) (args : List Node) (spec : EnvironmentSpec) (name : Bytes) :
    (environmentShape spec name).isContainer = true ∧
      (environmentShape spec name).before r args =
        ⟨ArgKind.isHungry (environmentEntry r name).args args, true⟩ := by
  unfold environmentShape
  split <;> exact ⟨rfl, rfl⟩

/-- The opening of an environment is read in front of anything. -/
theorem begin_again {name z : Bytes} (token : c.token = .ok (t, d))
    (kind : t.kind = .command (bytes "begin")) (opening : d.environmentName = .ok (name, e))
    {e' : Cursor} (he' : e'.rest = Cursor.beginMarker name ++ z) :
    ∃ t' d' f', e'.token = .ok (t', d') ∧ t'.kind = .command (bytes "begin") ∧
      d'.environmentName = .ok (name, f') ∧ f'.rest = z := by
  have htext := (Cursor.environmentName_reads opening).text
  have hafter : Follows d.rest (Byte.openBrace :: (name ++ Byte.closeBrace :: z)) := by
    rw [htext]
    exact Follows.cons (by decide) _ _
  obtain ⟨t', d', htoken, hkind, hd'⟩ := Cursor.token_append token (by rw [kind]; rfl) hafter
    (by rw [kind, he', beginMarker_eq]; simp)
  obtain ⟨f', hname, hf'⟩ := Cursor.environmentName_append opening hd'
  exact ⟨t', d', f', htoken, hkind.trans kind, hname, hf'⟩

theorem respells_environment {name : Bytes} {f stop : Cursor} {span : Span}
    (token : c.token = .ok (t, d)) (kind : t.kind = .command (bytes "begin"))
    (opening : d.environmentName = .ok (name, e))
    (nodes : (environmentEntry r name).spec.verbatim = false)
    (ihArgs : (Judgement.arguments mode (environmentEntry r name).args e args f).Respells r keep)
    (ihBody : (Judgement.sequence (if (environmentEntry r name).spec.math then .math else mode)
      .environment f body).Respells r keep)
    (closed : body.isOpen = false) (closing : body.cursor.environmentName = .ok (name, stop)) :
    (Judgement.item mode c (.branch span {}
      (environmentShape (environmentEntry r name).spec name) args body.nodes) stop).Respells r keep := by
  intro _ _ s y hs _ _ e' he'
  obtain ⟨hopening, hclosing⟩ := environmentShape_raw (environmentEntry r name).spec name
  obtain ⟨hshape, hbefore⟩ :=
    environmentShape_container r (Node.annotateAll r args) (environmentEntry r name).spec name
  obtain ⟨u, v, rfl, taken, inside, -⟩ := Spells.branch hs hshape
  rw [hbefore] at inside
  have hy : Closer.environment.Closes (Cursor.endMarker name ++ y) :=
    ⟨name ++ Byte.closeBrace :: y, by rw [endMarker_eq]; simp⟩
  obtain ⟨hfollows, hfeeds, -, hreads⟩ := ihBody [] .none (.inr closed) hy inside
  obtain ⟨-, hagain⟩ := ihArgs taken (hfollows rfl) (fun hhungry hsource =>
    hfeeds (by simpa using hhungry) hsource)
  obtain ⟨t', d', f', htoken, hkind, hname, hf'⟩ := begin_again token kind opening
    (z := u ++ (v ++ (Cursor.endMarker name ++ y))) (by rw [he', hopening, hclosing]; simp)
  obtain ⟨args', f'', hargs, hf'', hskeletons⟩ := hagain hf'
  obtain ⟨body', hbody, hbefore', hskeleton⟩ := hreads [] rfl rfl hf''
  have hend : body'.before.rest = (Token.Kind.command (bytes "end")).raw ++
      Byte.openBrace :: (name ++ Byte.closeBrace :: y) := by
    rw [hbefore', endMarker_eq]
    simp
  obtain ⟨hclosed, hcursor⟩ := closed_of_rereads hbody hend (by decide) (by rintro k rfl; rfl)
  obtain ⟨stop', hstop, hrest⟩ := Cursor.environmentName_append closing hcursor
  refine ⟨_, stop', .environment htoken hkind hname nodes hargs hbody hclosed hstop, hrest, ?_,
    like_of_token token htoken (.inl (hkind.trans kind.symm))⟩
  simp only [Node.skeleton, hskeleton, hskeletons]

/-- Whether an argument begins at a verbatim body does not depend on what stands behind its end. -/
theorem feeds_verbatim (body name x y : Bytes) :
    feeds r (body ++ (Cursor.endMarker name ++ x)) = feeds r (body ++ (Cursor.endMarker name ++ y)) := by
  have hwhite : ink (body.takeWhile isBlank) = [] := Token.ink_takeWhile (fun _ h => h) body
  rw [← List.takeWhile_append_dropWhile (p := isBlank) (l := body), List.append_assoc, List.append_assoc]
  have hnot := List.head?_dropWhile_not isBlank body
  cases hq : body.dropWhile isBlank with
  | nil =>
    have hy (z : Bytes) : Closer.environment.Closes (Cursor.endMarker name ++ z) :=
      ⟨name ++ Byte.closeBrace :: z, by rw [endMarker_eq]; simp⟩
    rw [List.nil_append, List.nil_append, feeds_append hwhite (hy x).solid, feeds_append hwhite (hy y).solid,
      (hy x).inert, (hy y).inert]
  | cons b q =>
    rw [hq] at hnot
    have hb : isBlank b = false := hnot
    rw [feeds_append hwhite (by simpa using hb), feeds_append hwhite (by simpa using hb)]
    congr 1
    by_cases hbackslash : b = Byte.backslash
    · subst hbackslash
      have hmore (z : Bytes) : q ++ (Cursor.endMarker name ++ z) ≠ [] := by simp [Cursor.endMarker, bytes]
      rw [beginsArgument_command (List.cons_append ..) (hmore x),
        beginsArgument_command (List.cons_append ..) (hmore y)]
      cases q with
      | nil => rfl
      | cons a q =>
        have hname (z : Bytes) : Token.commandName (a :: q ++ (Cursor.endMarker name ++ z)) =
            Token.commandName (a :: q) :=
          Token.commandName_of_backslash (List.cons_ne_nil a q) _
        rw [hname, hname]
    · simp only [List.cons_append, Parse.beginsArgument, if_neg hbackslash]

theorem respells_verbatim {name text : Bytes} {f stop : Cursor} {span : Span}
    (token : c.token = .ok (t, d)) (kind : t.kind = .command (bytes "begin"))
    (opening : d.environmentName = .ok (name, e))
    (raw : (environmentEntry r name).spec.verbatim = true)
    (ihArgs : (Judgement.arguments mode (environmentEntry r name).args e args f).Respells r keep)
    (content : f.verbatimBody name = some (text, stop)) :
    (Judgement.item mode c (.branch span {} (.verbatim name text) args []) stop).Respells r keep := by
  intro _ _ s y hs hfollows _ e' he'
  cases hs with
  | container kind => cases kind
  | @verbatim _ _ _ _ _ _ v u taken kept =>
    have htext := (Cursor.verbatimBody_reads content).text
    have hy : Closer.environment.Closes (Cursor.endMarker name ++ y) :=
      ⟨name ++ Byte.closeBrace :: y, by rw [endMarker_eq]; simp⟩
    rw [List.append_assoc] at htext
    have hafter : Follows f.rest (u ++ (Cursor.endMarker name ++ y)) := by
      rcases kept with rfl | ⟨-, hwhite⟩
      · rw [htext]
        exact ((hfollows rfl).append _).append _
      · by_cases hne : u = []
        · rw [hne]
          exact .of_isStop _ hy.stop
        · exact follows_white _ hwhite hne
    have hfeeds (hsource : feeds r f.rest = false) : feeds r (u ++ (Cursor.endMarker name ++ y)) = false := by
      rcases kept with rfl | ⟨-, hwhite⟩
      · rw [← hsource, htext]
        exact feeds_verbatim _ _ _ _
      · rw [feeds_append hwhite hy.solid, hy.inert, Bool.and_false]
    obtain ⟨-, hagain⟩ := ihArgs taken hafter fun _ => hfeeds
    obtain ⟨t', d', f', htoken, hkind, hname, hf'⟩ := begin_again token kind opening
      (z := v ++ (u ++ (Cursor.endMarker name ++ y))) (by rw [he']; simp)
    obtain ⟨args', f'', hargs, hf'', hskeletons⟩ := hagain hf'
    obtain ⟨stop', hstop, hrest⟩ : ∃ d, f''.verbatimBody name = some (u, d) ∧ d.rest = y := by
      rw [← List.append_assoc] at hf''
      rcases kept with rfl | ⟨-, hwhite⟩
      · exact Cursor.verbatimBody_append content hf''
      · exact Cursor.verbatimBody_white hwhite hf''
    refine ⟨_, stop', .verbatim htoken hkind hname raw hargs hstop, hrest, ?_,
      like_of_token token htoken (.inl (hkind.trans kind.symm))⟩
    have hsame : (if keep then u else []) = if keep then text else [] := by
      rcases kept with rfl | ⟨rfl, -⟩ <;> rfl
    simp only [Node.skeleton, hskeletons, Shape.skeleton, hsame]

end

/-! ## arguments -/

section

variable {c d e : Cursor} {kinds : List ArgKind} {args : List Node} {body : Sequence}

theorem respells_absent {kind : ArgKind} (missing : isAbsent r c kind = true)
    (others : Derives r (.arguments mode kinds c args d))
    (ih : (Judgement.arguments mode kinds c args d).Respells r keep) :
    (Judgement.arguments mode (kind :: kinds) c args d).Respells r keep := by
  intro s y hs hfollows hhungry
  obtain ⟨hafter, hagain⟩ := ih hs hfollows fun h => hhungry (isHungry_of_absent missing others h)
  refine ⟨hafter, fun he => ?_⟩
  have hfeeds (hkind : kind = .mandatory) : feeds r (s ++ y) = false := by
    subst hkind
    have hsource : feeds r c.rest = false := by simpa [isAbsent_mandatory] using missing
    cases args with
    | nil =>
      cases noArgs_of_spells hs
      refine hhungry (by simp [ArgKind.isHungry, ArgKind.waiting]) ?_
      rw [← hsource, others.moves.text]
      rfl
    | cons a as =>
      have hhead : ArgumentAt r c a := others.headArgument
      cases hhead with
      | mandatory solid fed first =>
        rw [fed] at hsource
        cases hsource
      | optional sign =>
        cases hs with
        | delimited solid white short bracket inside rest =>
          cases bracket rfl
          exact (feeds_of_solid rfl).trans rfl
  obtain ⟨args', d', hargs, hd', hskeleton⟩ := hagain he
  exact ⟨args', d', .absent (isAbsent_of_follows missing (he ▸ hafter) (he ▸ hfeeds)) hargs, hd', hskeleton⟩

theorem respells_star {span span' : Span} (sign : c.peek? = some Byte.star)
    (ih : (Judgement.arguments mode kinds (c.advance 1) args d).Respells r keep) :
    (Judgement.arguments mode (.star :: kinds) c (.branch span {} (.argument [] [] []) []
      [.leaf span' {} (.text [Byte.star])] :: args) d).Respells r keep := by
  intro s y hs hfollows hhungry
  cases hs with
  | delimited solid => exact absurd rfl solid
  | @bare _ _ _ _ _ _ w t _ u white short apart touching inside rest =>
    cases touching rfl rfl
    cases inside
    rw [isHungry_of_present rfl] at hhungry
    obtain ⟨-, hagain⟩ := ih rest hfollows hhungry
    refine ⟨?_, @fun e he => ?_⟩
    · rw [(Cursor.peek_reads sign).text]
      exact Follows.cons (by decide) _ _
    · have hsign : e.peek? = some Byte.star := by
        rw [Cursor.peek?, he]
        rfl
      obtain ⟨args', d', hargs, hd', hskeleton⟩ := hagain (e := e.advance 1) (by simp [he])
      refine ⟨_, d', .star hsign hargs, hd', ?_⟩
      simp [Node.skeletons, Node.skeleton, Node.isSpace, hskeleton]

theorem respells_optional {span : Span} (sign : c.peek? = some Byte.openBracket)
    (closed : body.isOpen = false)
    (ihBody : (Judgement.sequence mode (.bracket 0) (c.advance 1) body).Respells r keep)
    (ih : (Judgement.arguments mode kinds body.cursor args d).Respells r keep) :
    (Judgement.arguments mode (.optional :: kinds) c (.branch span {}
      (.argument [] ArgKind.optional.opening ArgKind.optional.closing) [] body.nodes :: args) d).Respells r
      keep := by
  intro s y hs hfollows hhungry
  cases hs with
  | @delimited _ _ _ _ _ _ _ w t _ u solid white short bracket inside rest =>
    cases bracket rfl
    rw [isHungry_of_present rfl] at hhungry
    obtain ⟨-, hagain⟩ := ih rest hfollows hhungry
    have hy : (Closer.bracket 0).Closes ([Byte.closeBracket] ++ (u ++ y)) := rfl
    obtain ⟨-, -, -, hreads⟩ := ihBody [] .none (.inr closed) hy inside
    refine ⟨?_, @fun e he => ?_⟩
    · rw [(Cursor.peek_reads sign).text]
      exact Follows.cons (by decide) _ _
    · have hsign : e.peek? = some Byte.openBracket := by
        rw [Cursor.peek?, he]
        rfl
      obtain ⟨body', hbody, hbefore, hskeleton⟩ := hreads [] (e := e.advance 1) rfl rfl
        (by simp [he, ArgKind.opening, ArgKind.closing])
      obtain ⟨hclosed, hcursor⟩ := closed_of_rereads hbody hbefore (by decide) (by rintro k rfl; rfl)
      obtain ⟨args', d', hargs, hd', hskeletons⟩ := hagain hcursor
      refine ⟨_, d', .optional hsign hbody hclosed hargs, hd', ?_⟩
      simp [Node.skeletons, Node.skeleton, Node.isSpace, hskeleton, hskeletons]

/-- White space in front of something that stops whatever comes before it. -/
theorem follows_spaced {w z : Bytes} (x : Bytes) (hw : ink w = []) (hz : z.head?.all isStop = true) :
    Follows x (w ++ z) := by
  by_cases hne : w = []
  · rw [hne]
    exact .of_isStop _ hz
  · exact follows_white _ hw hne

theorem respells_braced {span : Span} (closed : body.isOpen = false)
    (ihBody : (Judgement.sequence mode .brace (c.skipSpace.2.advance 1) body).Respells r keep)
    (ih : (Judgement.arguments mode kinds body.cursor args d).Respells r keep) :
    (Judgement.arguments mode (.mandatory :: kinds) c (.branch span {}
      (.argument c.skipSpace.1 ArgKind.mandatory.opening ArgKind.mandatory.closing) []
      body.nodes :: args) d).Respells r keep := by
  intro s y hs hfollows hhungry
  cases hs with
  | @delimited _ _ _ _ _ _ _ w t _ u solid white short bracket inside rest =>
    rw [isHungry_of_present rfl] at hhungry
    obtain ⟨-, hagain⟩ := ih rest hfollows hhungry
    have hy : Closer.brace.Closes ([Byte.closeBrace] ++ (u ++ y)) := rfl
    obtain ⟨-, -, -, hreads⟩ := ihBody [] .none (.inr closed) hy inside
    have htext : w ++ ArgKind.mandatory.opening ++ t ++ ArgKind.mandatory.closing ++ u ++ y =
        w ++ Byte.openBrace :: (t ++ ([Byte.closeBrace] ++ (u ++ y))) := by
      simp [ArgKind.opening, ArgKind.closing]
    rw [htext]
    refine ⟨follows_spaced _ white rfl, @fun e he => ?_⟩
    obtain ⟨-, hskip⟩ := Cursor.skipSpace_of_rest white rfl short he
    have hsign : e.skipSpace.2.peek? = some Byte.openBrace := by
      rw [Cursor.peek?, hskip]
      rfl
    obtain ⟨body', hbody, hbefore, hskeleton⟩ :=
      hreads [] (e := e.skipSpace.2.advance 1) rfl rfl (by simp [hskip])
    obtain ⟨hclosed, hcursor⟩ := closed_of_rereads hbody hbefore (by decide) (by rintro k rfl; rfl)
    obtain ⟨args', d', hargs, hd', hskeletons⟩ := hagain hcursor
    refine ⟨_, d', .braced hsign hbody hclosed hargs, hd', ?_⟩
    simp [Node.skeletons, Node.skeleton, Node.isSpace, hskeleton, hskeletons, Shape.skeleton]

theorem respells_bareCommand {t : Token} {name : Bytes} {stop : Cursor} {span : Span} {n : Nat}
    (token : c.skipSpace.2.token = .ok (t, stop)) (kind : t.kind = .command name)
    (known : r.isVerb name = false) (free : isDelimiter name = false)
    (ih : (Judgement.arguments mode kinds stop args d).Respells r keep) :
    (Judgement.arguments mode (.mandatory :: kinds) c (bareArgument c c.skipSpace.1
      (.branch span {} (.command escape name) [] []) n :: args) d).Respells r keep := by
  intro s y hs hfollows hhungry
  cases hs with
  | delimited solid => exact absurd rfl solid
  | @bare _ _ _ _ _ _ w t _ u white short apart touching inside rest =>
    rw [isHungry_of_present rfl] at hhungry
    obtain ⟨hafter, hagain⟩ := ih rest hfollows hhungry
    cases inside with
    | container kind => cases kind
    | command taken =>
    cases noArgs_of_spells taken
    have htext : w ++ (escape ++ name ++ []) ++ u ++ y = w ++ Byte.backslash :: (name ++ (u ++ y)) := by
      simp [escape]
    rw [htext]
    refine ⟨follows_spaced _ white rfl, @fun e he => ?_⟩
    obtain ⟨-, hskip⟩ := Cursor.skipSpace_of_rest white rfl short he
    obtain ⟨t', stop', htoken, hkind, hstop⟩ := Cursor.token_append token (by rw [kind]; rfl) hafter
      (by rw [hskip, kind]; rfl)
    obtain ⟨args', d', hargs, hd', hskeletons⟩ := hagain hstop
    refine ⟨_, d', .bareCommand htoken (hkind.trans kind) known free hargs, hd', ?_⟩
    simp [Node.skeletons, Node.skeleton, Node.isSpace, bareArgument, hskeletons, Shape.skeleton]

theorem respells_bareCharacter {b : UInt8} {char : Bytes} {stop : Cursor} {span : Span} {n : Nat}
    (sign : c.skipSpace.2.peek? = some b) (inert : (b ≠ 0 && !isActive b && !isBlank b) = true)
    (content : c.skipSpace.2.character = (char, stop))
    (ih : (Judgement.arguments mode kinds stop args d).Respells r keep) :
    (Judgement.arguments mode (.mandatory :: kinds) c (bareArgument c c.skipSpace.1
      (.leaf span {} (.text char)) n :: args) d).Respells r keep := by
  intro s y hs hfollows hhungry
  cases hs with
  | delimited solid => exact absurd rfl solid
  | @bare _ _ _ _ _ _ w t _ u white short apart touching inside rest =>
    rw [isHungry_of_present rfl] at hhungry
    obtain ⟨hafter, hagain⟩ := ih rest hfollows hhungry
    cases inside
    obtain ⟨char, rfl⟩ := Cursor.character_head content sign
    have hblank : isBlank b = false := by
      simp only [Bool.and_eq_true, Bool.not_eq_true'] at inert
      exact inert.2
    rw [List.append_assoc, List.append_assoc]
    refine ⟨?_, @fun e he => ?_⟩
    · by_cases hne : w = []
      · have hspace := apart hne
        have htext := (Cursor.skipSpace_reads c).text
        have hchar := (Cursor.character_reads c.skipSpace.2).text
        rw [content] at hchar
        rw [hspace, hchar] at htext
        rw [htext, hne]
        exact hafter.append _
      · exact follows_white _ white hne
    · obtain ⟨-, hskip⟩ := Cursor.skipSpace_of_rest white (by simpa using hblank) short he
      have hsign : e.skipSpace.2.peek? = some b := by
        rw [Cursor.peek?, hskip]
        rfl
      obtain ⟨stop', hchar, hstop⟩ := Cursor.character_append
        (fun h => by rw [Cursor.peek?, h] at sign; cases sign) content hafter hskip
      obtain ⟨args', d', hargs, hd', hskeletons⟩ := hagain hstop
      refine ⟨_, d', .bareCharacter hsign inert hchar hargs, hd', ?_⟩
      simp [Node.skeletons, Node.skeleton, Node.isSpace, bareArgument, hskeletons, Shape.skeleton]

end

/-! ## all derivations -/

/-- **A spelling of what was read can be read, and has the same structure.** -/
theorem Derives.respells {j : Judgement} (h : Derives r j) : j.Respells r keep := by
  induction h with
  | stop token closed => exact respells_stop closed
  | @next _ _ _ _ _ _ n _ _ token pass more head rest ihHead ihRest =>
    cases hspace : n.isSpace with
    | true => exact respells_space token pass head hspace ihRest
    | false =>
      cases hcomment : n.comment? with
      | none => exact respells_code token pass more head hspace hcomment ihHead ihRest
      | some comment => exact respells_comment pass (kind_of_comment token head hcomment).1 hcomment ihRest
  | @leaf _ _ _ _ l token plain =>
    intro hsolid hcode
    obtain ⟨content, rfl⟩ := text_of_plainLeaf? plain hsolid hcode
    exact respells_text token plain hsolid hcode
  | script token kind sign taken ih => exact respells_script token kind sign ih
  | group token kind content closed ih => exact respells_group token kind closed ih
  | formula token kind content closed ih => exact respells_formula token kind closed ih
  | dollar token kind content closed half ih => exact respells_dollar token kind closed ih
  | emptyDollars token kind => exact respells_emptyDollars token kind
  | environment token kind opening nodes taken content closed closing ihArgs ihBody =>
    exact respells_environment token kind opening nodes ihArgs ihBody closed closing
  | verbatim token kind opening raw taken content ih =>
    exact respells_verbatim token kind opening raw ih content
  | verb token kind known free starred star_eq content =>
    exact respells_verb token kind known free starred star_eq content
  | command token kind known free taken ih => exact respells_command token kind known free taken ih
  | done =>
    intro s y hs hfollows _
    cases noArgs_of_spells hs
    exact ⟨hfollows, fun he => ⟨[], _, .done, he, rfl⟩⟩
  | absent missing others ih => exact respells_absent missing others ih
  | star sign others ih => exact respells_star sign ih
  | optional sign content closed others ihBody ih => exact respells_optional sign closed ihBody ih
  | braced sign content closed others ihBody ih => exact respells_braced closed ihBody ih
  | bareCommand token kind known free others ih => exact respells_bareCommand token kind known free ih
  | bareCharacter sign inert content others ih => exact respells_bareCharacter sign inert content ih

/-- **A spelling of a document is a document of the same structure.** -/
theorem exists_document_of_spells {src out : Bytes} {body : Sequence}
    (h : Derives r (.sequence .text .document (.ofOffset src 0) body))
    (hs : Spells r keep (.nodes {} (Node.annotateAll r body.nodes)) out) :
    ∃ tree, document r out = .ok tree ∧
      tree.skeleton keep = (Node.branch ⟨0, src.length⟩ {} .document [] body.nodes).skeleton keep := by
  obtain ⟨-, -, -, hreads⟩ := h.respells [] (y := []) .none (.inl rfl) rfl hs
  obtain ⟨body', hbody, -, hskeleton⟩ :=
    hreads [] (e := .ofOffset out 0) rfl rfl (by simp [Cursor.ofOffset])
  refine ⟨_, document_of_derives hbody, ?_⟩
  simp only [Node.skeleton, hskeleton]

end Parse

end TexTidy
