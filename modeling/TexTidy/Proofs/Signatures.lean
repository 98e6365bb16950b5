import TexTidy.Proofs.Respell

/-!
# TexTidy.Proofs.Signatures

The arguments of a command are those that its signature asks for, and so are those of an environment. `Matches kinds
args` says that the arguments are of kinds that are left of a signature when some of it is crossed out, and `Fits`
says what an argument of a kind looks like.

A tree does not keep the modes in which its nodes were read, but they can be told from the nodes above: `inModes`
lists all nodes of a tree with their modes. `Conforms` is what a command or an environment has to obey in its mode,
and `Derives.conforms` shows that whatever is read does.
-/

namespace TexTidy

/-! ## one character -/

namespace Utf8

theorem length_decode_of_first {a : UInt8} {s : Bytes} (h : (first (a :: s)).2 = (a :: s).length) :
    (decode (a :: s)).length = 1 := by
  unfold first at h
  cases hfirst : first? (a :: s) with
  | none =>
    have hone : s = [] := by simpa [hfirst] using h
    subst hone
    simp [decode, pieces, hfirst]
  | some p =>
    have hall : p.2 = s.length + 1 := by simpa [hfirst] using h
    simp [decode, pieces, hfirst, hall]

/-- The first character of a text is as long by itself. -/
theorem first_take_first {s : Bytes} (hs : s ≠ []) : (first (s.take (first s).2)).2 = (first s).2 := by
  cases h : first? s with
  | none =>
    -- A byte that begins no character is all there is of it.
    obtain ⟨a, s, rfl⟩ := List.exists_cons_of_ne_nil hs
    have hone : (first (a :: s)).2 = 1 := by simp [first, h]
    rw [hone, List.take_succ_cons, List.take_zero]
    exact Nat.le_antisymm (first_le_length [a]) (first_pos (List.cons_ne_nil a []))
  | some p =>
    have hp : (first s).2 = p.2 := by simp [first, h]
    have hle : p.2 ≤ (s.take p.2).length := by simp [(first?_bounds h).2]
    have htake := (first?_append_iff hle (s.drop p.2)).1 (by rwa [List.take_append_drop])
    rw [hp, first, htake]

/-- What stands first in a text is one character. -/
theorem length_decode_take_first {s : Bytes} (hs : s ≠ []) : (decode (s.take (first s).2)).length = 1 := by
  have hlength : (s.take (first s).2).length = (first s).2 := by simp [first_le_length]
  have hfirst := (first_take_first hs).trans hlength.symm
  have hne := List.ne_nil_of_length_pos (hlength ▸ first_pos hs)
  obtain ⟨a, u, hu⟩ := List.exists_cons_of_ne_nil hne
  rw [hu] at hfirst ⊢
  exact length_decode_of_first hfirst

end Utf8

/-! ## kinds of arguments -/

namespace Node

/-- The content of a text. -/
def text? : Node → Option Bytes
  | .leaf _ _ (.text content) => some content
  | _ => none

/-- Whether the brackets among the nodes close each other, when `depth` brackets are open before. -/
def balanced : Nat → List Node → Bool
  | depth, [] => depth == 0
  | depth, n :: ns =>
    if n.text? = some [Byte.openBracket] then balanced (depth + 1) ns
    else if n.text? = some [Byte.closeBracket] then 0 < depth && balanced (depth - 1) ns
    else balanced depth ns

/-- What an argument of a kind looks like. A mandatory one may do without braces, if it is one character or one
    command without arguments. -/
inductive Fits : ArgKind → Node → Prop
  | star {span hints s h} :
      Fits .star (.branch span hints (.argument [] [] []) [] [.leaf s h (.text [Byte.star])])
  | optional {span hints content} (balanced : balanced 0 content = true) :
      Fits .optional (.branch span hints (.argument [] [Byte.openBracket] [Byte.closeBracket]) [] content)
  | braced {span hints space content} :
      Fits .mandatory (.branch span hints (.argument space [Byte.openBrace] [Byte.closeBrace]) [] content)
  | character {span hints space s h char} (one : (Utf8.decode char).length = 1) :
      Fits .mandatory (.branch span hints (.argument space [] []) [] [.leaf s h (.text char)])
  | command {span hints space s h name} :
      Fits .mandatory (.branch span hints (.argument space [] []) []
        [.branch s h (.command [Byte.backslash] name) [] []])

/-- The arguments are those of a signature, in order, and some may be absent. -/
inductive Matches : List ArgKind → List Node → Prop
  | done : Matches [] []
  | absent {kind kinds args} (others : Matches kinds args) : Matches (kind :: kinds) args
  | present {kind kinds arg args} (fits : Fits kind arg) (others : Matches kinds args) :
      Matches (kind :: kinds) (arg :: args)

theorem matches_nil (kinds : List ArgKind) : Matches kinds [] := by
  induction kinds with
  | nil => exact .done
  | cons kind kinds ih => exact .absent ih

end Node

/-! ## modes of nodes -/

namespace Shape

/-- The mode of the arguments of a branch that is in a mode itself. -/
def argsMode (r : Registry) (mode : Mode) : Shape → Mode
  | .command escape name => if escape = [] then mode else Parse.commandMode r name mode
  | _ => mode

/-- The mode of the content of a branch that is in a mode itself. -/
def contentMode (mode : Mode) : Shape → Mode
  | .mathEnvironment _ => .math
  | .displayMath _ _ => .math
  | .inlineMath _ _ => .math
  | _ => mode

end Shape

namespace Node

mutual

/-- All nodes of a tree in reading order, with their modes. -/
def inModes (r : Registry) (mode : Mode) : Node → List (Mode × Node)
  | .leaf s h l => [(mode, .leaf s h l)]
  | .branch s h shape args content =>
    (mode, .branch s h shape args content) ::
      (inModesAll r (shape.argsMode r mode) args ++ inModesAll r (shape.contentMode mode) content)

/-- All nodes of a sequence in reading order, with their modes. -/
def inModesAll (r : Registry) (mode : Mode) : List Node → List (Mode × Node)
  | [] => []
  | n :: ns => inModes r mode n ++ inModesAll r mode ns

end

mutual

/-- Every node has a mode. -/
theorem map_inModes (r : Registry) (mode : Mode) : (n : Node) → (n.inModes r mode).map Prod.snd = n.preorder
  | .leaf s h l => rfl
  | .branch s h shape args content => by
    rw [inModes, preorder, List.map_cons, List.map_append, map_inModesAll r _ args, map_inModesAll r _ content]

theorem map_inModesAll (r : Registry) (mode : Mode) :
    (ns : List Node) → (inModesAll r mode ns).map Prod.snd = preorderAll ns
  | [] => rfl
  | n :: ns => by rw [inModesAll, preorderAll, List.map_append, map_inModes r mode n, map_inModesAll r mode ns]

end

variable {r : Registry} {P : Mode → Node → Prop} {mode : Mode}

/-- The property holds of every node of a tree in its mode. -/
def EachIn (r : Registry) (P : Mode → Node → Prop) (mode : Mode) (n : Node) : Prop :=
  ∀ p ∈ n.inModes r mode, P p.1 p.2

/-- The property holds of every node of a sequence in its mode. -/
def AllIn (r : Registry) (P : Mode → Node → Prop) (mode : Mode) (ns : List Node) : Prop :=
  ∀ p ∈ inModesAll r mode ns, P p.1 p.2

theorem allIn_nil : AllIn r P mode [] := by
  intro p hp
  cases hp

theorem allIn_cons {n : Node} {ns : List Node} (hn : EachIn r P mode n) (hns : AllIn r P mode ns) :
    AllIn r P mode (n :: ns) := by
  intro p hp
  rw [inModesAll, List.mem_append] at hp
  exact hp.elim (hn p) (hns p)

theorem eachIn_leaf {s : Span} {h : Hints} {l : Leaf} (hself : P mode (.leaf s h l)) :
    EachIn r P mode (.leaf s h l) := by
  intro p hp
  rw [inModes, List.mem_singleton] at hp
  exact hp ▸ hself

theorem eachIn_branch {s : Span} {h : Hints} {shape : Shape} {args content : List Node}
    (hself : P mode (.branch s h shape args content)) (hargs : AllIn r P (shape.argsMode r mode) args)
    (hcontent : AllIn r P (shape.contentMode mode) content) : EachIn r P mode (.branch s h shape args content) := by
  intro p hp
  rw [inModes, List.mem_cons, List.mem_append] at hp
  rcases hp with rfl | hp | hp
  · exact hself
  · exact hargs p hp
  · exact hcontent p hp

end Node

namespace Parse

open Node (Fits Matches EachIn AllIn balanced allIn_nil allIn_cons eachIn_leaf eachIn_branch)

/-- What a command or an environment has to obey in a mode. -/
def Conforms (r : Registry) (mode : Mode) : Node → Prop
  | .branch _ _ (.command escape name) args _ =>
    escape = [Byte.backslash] ∧ isDelimiter name = false ∧ r.isVerb name = false ∧
      Matches (commandArgs r name) args ∨
    escape = [] ∧ (name = [Byte.caret] ∨ name = [Byte.underscore]) ∧ mode = .math ∧ Matches [.mandatory] args
  | .branch _ _ (.environment name) args _ => Matches (environmentEntry r name).args args
  | .branch _ _ (.mathEnvironment name) args _ => Matches (environmentEntry r name).args args
  | .branch _ _ (.verbatim name _) args _ => Matches (environmentEntry r name).args args
  | _ => True

/-! ## brackets -/

/-- A byte that is a token by itself is no part of another token. -/
theorem kind_of_raw {i : Bool} {s : Bytes} {k k' : Token.Kind} {b : UInt8} (hb : Token.single? b = some k')
    (hscan : Token.scan? i s = some k) (hraw : k.raw = [b]) : k = k' := by
  obtain ⟨rest, rfl⟩ := Token.raw_scan?_isPrefix hscan
  rw [hraw, List.singleton_append, Token.scan?, hb] at hscan
  exact (Option.some.inj hscan).symm

section

variable {r : Registry} {mode : Mode} {c d e : Cursor} {t : Token} {n : Node}

/-- A node is the text of a byte that is a token by itself just where this token stands. -/
theorem text?_eq_iff {b : UInt8} {k : Token.Kind} (hb : Token.single? b = some k)
    (hplain : ∀ mode, plainLeaf? mode k = some (.text [b])) (token : c.token = .ok (t, d))
    (head : Derives r (.item mode c n e)) : n.text? = some [b] ↔ t.kind = k := by
  refine ⟨fun htext => ?_, fun hkind => ?_⟩
  · cases head with
    | @leaf _ _ t' _ l token' plain =>
      cases token.symm.trans token'
      cases l with
      | text content =>
        have hraw := raw_plainLeaf? plain
        rw [Option.some.inj htext] at hraw
        exact kind_of_raw hb (Cursor.scan?_of_token token) (by rw [← hraw]; simp [Leaf.raw, Leaf.rawPieces])
      | _ => cases htext
    | _ => cases htext
  · rw [head.eq_leaf token (by rw [hkind, hplain])]
    rfl

theorem pass_bracket (depth : Nat) (k : Token.Kind) :
    (Closer.bracket depth).pass k =
      if k = .openBracket then some (.bracket (depth + 1))
      else if k = .closeBracket then if depth = 0 then none else some (.bracket (depth - 1))
      else some (.bracket depth) := by
  cases depth <;> rfl

/-- What is closed by a bracket has balanced brackets. -/
def Judgement.Bracketed : Judgement → Prop
  | .sequence _ (.bracket depth) _ s => s.isOpen = false → balanced depth s.nodes = true
  | _ => True

theorem text?_link (n : Node) (ns : List Node) : ∃ m, link n ns = m :: ns ∧ m.text? = n.text? := by
  unfold link
  split
  · exact ⟨_, rfl, rfl⟩
  · exact ⟨n, rfl, rfl⟩

theorem balanced_next {depth : Nat} {later : Closer} {tail : Sequence} (token : c.token = .ok (t, d))
    (pass : (Closer.bracket depth).pass t.kind = some later) (head : Derives r (.item mode c n e))
    (ih : (Judgement.sequence mode later e tail).Bracketed) (closed : tail.isOpen = false) :
    balanced depth (link n tail.nodes) = true := by
  obtain ⟨m, hlink, htext⟩ := text?_link n tail.nodes
  have hopening : n.text? = some [Byte.openBracket] ↔ _ := text?_eq_iff rfl (fun _ => rfl) token head
  have hclosing : n.text? = some [Byte.closeBracket] ↔ _ := text?_eq_iff rfl (fun _ => rfl) token head
  rw [hlink, balanced, htext]
  simp only [hopening, hclosing]
  rw [pass_bracket] at pass
  split
  · next hopen =>
    rw [if_pos hopen] at pass
    cases pass
    exact ih closed
  · next hopen =>
    rw [if_neg hopen] at pass
    split
    · next hclose =>
      rw [if_pos hclose] at pass
      split at pass
      · cases pass
      · next hdepth =>
        cases pass
        simp [Nat.pos_of_ne_zero hdepth, ih closed]
    · next hclose =>
      rw [if_neg hclose] at pass
      cases pass
      exact ih closed

end

theorem Derives.bracketed {r : Registry} {j : Judgement} (h : Derives r j) : j.Bracketed := by
  induction h with
  | @stop _ closer _ t _ token closed =>
    cases closer with
    | bracket depth =>
      intro hopen
      rcases closed with hnone | hend
      · have hdepth : depth = 0 := by grind [pass_bracket]
        rw [hdepth]
        rfl
      · simp [Sequence.isOpen, hend] at hopen
    | _ => trivial
  | @next _ closer _ _ _ _ _ _ _ token pass more head rest ihHead ihRest =>
    cases closer with
    | bracket depth => exact fun closed => balanced_next token pass head ihRest closed
    | _ => trivial
  | _ => trivial

/-! ## derivations -/

/-- Commands and environments conform in whatever is read. -/
def Judgement.Conforms (r : Registry) : Judgement → Prop
  | .sequence mode _ _ s => AllIn r (Parse.Conforms r) mode s.nodes
  | .item mode _ n _ => EachIn r (Parse.Conforms r) mode n
  | .arguments mode kinds _ args _ => AllIn r (Parse.Conforms r) mode args ∧ Matches kinds args

theorem conforms_link {r : Registry} {mode : Mode} {n : Node} {ns : List Node}
    (hn : EachIn r (Conforms r) mode n) (hns : AllIn r (Conforms r) mode ns) :
    AllIn r (Conforms r) mode (link n ns) := by
  unfold link
  split
  · exact allIn_cons (eachIn_leaf trivial) hns
  · exact allIn_cons hn hns

/-- A formula is no command, and its content is in math mode. -/
theorem conforms_formula? {r : Registry} {mode : Mode} {k : Token.Kind} {closer : Closer} {shape : Shape}
    {span : Span} {nodes : List Node} (h : formula? k = some (closer, shape))
    (hnodes : AllIn r (Conforms r) .math nodes) : EachIn r (Conforms r) mode (.branch span {} shape [] nodes) := by
  rcases formula?_cases h with ⟨-, -, rfl⟩ | ⟨-, -, rfl⟩ | ⟨-, -, rfl⟩ <;>
    exact eachIn_branch trivial allIn_nil hnodes

/-- An argument in front of others. -/
theorem conforms_cons {r : Registry} {mode : Mode} {kind : ArgKind} {kinds : List ArgKind} {span : Span}
    {space opening closing : Bytes} {content args : List Node}
    (hfits : Fits kind (.branch span {} (.argument space opening closing) [] content))
    (hcontent : AllIn r (Conforms r) mode content) (h : AllIn r (Conforms r) mode args ∧ Matches kinds args) :
    AllIn r (Conforms r) mode (.branch span {} (.argument space opening closing) [] content :: args) ∧
      Matches (kind :: kinds) (.branch span {} (.argument space opening closing) [] content :: args) :=
  ⟨allIn_cons (eachIn_branch trivial allIn_nil hcontent) h.1, .present hfits h.2⟩

/-- **Commands and environments conform in whatever is read.** -/
theorem Derives.conforms {r : Registry} {j : Judgement} (h : Derives r j) : j.Conforms r := by
  induction h with
  | stop token closed => exact allIn_nil
  | next token pass more head rest ihHead ihRest => exact conforms_link ihHead ihRest
  | leaf token plain => exact eachIn_leaf trivial
  | script token kind sign taken ih =>
    refine eachIn_branch (.inr ⟨rfl, ?_, rfl, ih.2⟩) ih.1 allIn_nil
    exact sign.imp (congrArg (fun b => [b])) (congrArg (fun b => [b]))
  | group token kind content closed ih => exact eachIn_branch trivial allIn_nil ih
  | formula token kind content closed ih => exact conforms_formula? kind ih
  | dollar token kind content closed half ih => exact eachIn_branch trivial allIn_nil ih
  | emptyDollars token kind => exact eachIn_branch trivial allIn_nil allIn_nil
  | environment token kind opening nodes taken content closed closing ihTaken ihContent =>
    unfold environmentShape
    split at ihContent
    · next hmath =>
      rw [if_pos hmath]
      exact eachIn_branch ihTaken.2 ihTaken.1 ihContent
    · next hmath =>
      rw [if_neg hmath]
      exact eachIn_branch ihTaken.2 ihTaken.1 ihContent
  | verbatim token kind opening raw taken content ih => exact eachIn_branch ih.2 ih.1 allIn_nil
  | verb token kind known free starred star_eq content => exact eachIn_leaf trivial
  | command token kind known free taken ih => exact eachIn_branch (.inl ⟨rfl, free, known, ih.2⟩) ih.1 allIn_nil
  | done => exact ⟨allIn_nil, .done⟩
  | absent missing others ih => exact ⟨ih.1, .absent ih.2⟩
  | star sign others ih => exact conforms_cons .star (allIn_cons (eachIn_leaf trivial) allIn_nil) ih
  | optional sign content closed others ihContent ihOthers =>
    exact conforms_cons (.optional (content.bracketed closed)) ihContent ihOthers
  | braced sign content closed others ihContent ihOthers => exact conforms_cons .braced ihContent ihOthers
  | bareCommand token kind known free others ih =>
    refine conforms_cons .command (allIn_cons (eachIn_branch ?_ allIn_nil allIn_nil) allIn_nil) ih
    exact .inl ⟨rfl, free, known, Node.matches_nil _⟩
  | bareCharacter sign inert content others ih =>
    refine conforms_cons (.character ?_) (allIn_cons (eachIn_leaf trivial) allIn_nil) ih
    obtain ⟨s, hs⟩ := List.head?_eq_some_iff.1 sign
    have hchar : (Utf8.decode (Cursor.character _).1).length = 1 :=
      Utf8.length_decode_take_first (by rw [hs]; exact List.cons_ne_nil _ s)
    rwa [content] at hchar

/-- **Arguments follow signatures.** The nodes of a document are in modes, and each of them conforms in its mode: the
    arguments of a command or an environment are those of its signature, in order, as far as they are present; a
    command with a backslash is neither a delimiter nor verbatim text; and a command without one is a script of a
    formula. -/
theorem arguments_follow_signatures {r : Registry} {src : Bytes} {tree : Node} (h : document r src = .ok tree) :
    (tree.inModes r .text).map Prod.snd = tree.preorder ∧ ∀ p ∈ tree.inModes r .text, Conforms r p.1 p.2 := by
  refine ⟨Node.map_inModes r .text tree, ?_⟩
  obtain ⟨body, hbody, rfl⟩ := derives_of_document h
  exact eachIn_branch trivial allIn_nil hbody.conforms

/-- Every kind of argument: a star, brackets in brackets, one character and one command; and a script inside a formula
    beside an underscore that is text. -/
theorem arguments_follow_signatures_starred :
    ∃ tree, document .builtin (bytes "\\section*[a[b]c]\x7bx\x7d$\\frac 1\\alpha^2\\mbox\x7b_\x7d$") = .ok tree ∧
      (tree.inModes .builtin .text).map Prod.snd = tree.preorder ∧
      ∀ p ∈ tree.inModes .builtin .text, Conforms .builtin p.1 p.2 := by
  obtain ⟨tree, htree⟩ := exists_ok_of_isOk (x := document .builtin
    (bytes "\\section*[a[b]c]\x7bx\x7d$\\frac 1\\alpha^2\\mbox\x7b_\x7d$")) (by decide +kernel)
  exact ⟨tree, htree, arguments_follow_signatures htree⟩

end Parse

end TexTidy
