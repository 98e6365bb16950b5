import TexTidy.Proofs.Lexeme

/-!
# TexTidy.Proofs.RawPieces

The pieces of raw text. A printer that puts the text of a node on other lines replaces the pieces that are a newline and
writes all others as they are, so a piece with a newline inside would not be indented. `Isolates` says that there is none
but the bodies of verbatim environments, each of them one piece.

Most pieces come from `linePieces`, which cuts at newlines. The text of a `\verb` is not cut, so there it counts that
neither its delimiter nor what stands between them holds a newline. Its name is the one thing that may: a registry can
make a command out of the newline itself (`isNewlineVerb`).
-/

namespace TexTidy

open Bytes (linePieces)

/-! ## isolated newlines -/

/-- Among the pieces stand the given bodies, in order. Every other piece is a newline, or text on one line that is not
    empty. -/
inductive Isolates : List Bytes → List Bytes → Prop
  | nil : Isolates [] []
  | newline {bodies pieces : List Bytes} (rest : Isolates bodies pieces) :
      Isolates bodies ([Byte.newline] :: pieces)
  | line {bodies pieces : List Bytes} {piece : Bytes} (nonempty : piece ≠ []) (oneLine : Byte.newline ∉ piece)
      (rest : Isolates bodies pieces) : Isolates bodies (piece :: pieces)
  | body {bodies pieces : List Bytes} (body : Bytes) (rest : Isolates bodies pieces) :
      Isolates (body :: bodies) (body :: pieces)

namespace Isolates

variable {as bs ps qs : List Bytes} {p : Bytes}

theorem append (h : Isolates as ps) (h' : Isolates bs qs) : Isolates (as ++ bs) (ps ++ qs) := by
  induction h with
  | nil => exact h'
  | newline rest ih => exact .newline ih
  | line nonempty oneLine rest ih => exact .line nonempty oneLine ih
  | body b rest ih => exact .body b ih

theorem singleton (hne : p ≠ []) (hp : Byte.newline ∉ p) : Isolates [] [p] :=
  .line hne hp .nil

/-- What a piece can be. -/
theorem cases_of_mem (h : Isolates bs ps) (hp : p ∈ ps) :
    p = [Byte.newline] ∨ p ≠ [] ∧ Byte.newline ∉ p ∨ p ∈ bs := by
  induction h with
  | nil => cases hp
  | newline rest ih =>
    rcases List.mem_cons.1 hp with rfl | hp
    · exact .inl rfl
    · exact ih hp
  | line nonempty oneLine rest ih =>
    rcases List.mem_cons.1 hp with rfl | hp
    · exact .inr (.inl ⟨nonempty, oneLine⟩)
    · exact ih hp
  | body b rest ih =>
    rcases List.mem_cons.1 hp with rfl | hp
    · exact .inr (.inr List.mem_cons_self)
    · exact (ih hp).imp_right (Or.imp_right (List.mem_cons_of_mem b))

end Isolates

/-- **Cutting a text at its newlines isolates them.** -/
theorem isolates_linePieces (s : Bytes) : Isolates [] (linePieces s) := by
  induction s with
  | nil => exact .nil
  | cons c s ih =>
    rw [linePieces]
    split
    · next hc =>
      rw [beq_iff_eq.1 hc]
      exact .newline ih
    · next hc =>
      have hc : Byte.newline ≠ c := fun h => hc (by simp [h])
      split
      · exact .singleton (by simp) (by simpa using hc)
      · next p ps hpieces =>
        rw [hpieces] at ih
        split
        · exact .line (by simp) (by simpa using hc) ih
        · next hp =>
          cases ih with
          | newline rest => exact absurd rfl hp
          | line nonempty oneLine rest => exact .line (by simp) (by simp [hc, oneLine]) rest

/-! ## the pieces of a tree -/

/-- The body of a verbatim environment. -/
def Shape.body? : Shape → Option Bytes
  | .verbatim _ body => some body
  | _ => none

theorem Shape.isolates_openingPieces (shape : Shape) : Isolates [] shape.openingPieces := by
  cases shape with
  | document => exact .nil
  | group => exact .singleton (by decide) (by decide)
  | argument space opening closing => exact (isolates_linePieces space).append (isolates_linePieces opening)
  | _ => exact isolates_linePieces _

theorem Shape.isolates_closingPieces (shape : Shape) : Isolates shape.body?.toList shape.closingPieces := by
  cases shape with
  | document | command => exact .nil
  | group => exact .singleton (by decide) (by decide)
  | verbatim name body => exact .body body (isolates_linePieces _)
  | _ => exact isolates_linePieces _

namespace Node

/-- The body of a verbatim environment. -/
def body? : Node → Option Bytes
  | .leaf _ _ _ => none
  | .branch _ _ shape _ _ => shape.body?

/-- Verbatim text between delimiters behind a command whose name holds a newline. -/
def isNewlineVerb : Node → Bool
  | .leaf _ _ (.verb _ name _ _) => name.hasNewline
  | _ => false

mutual

/-- The bodies of the verbatim environments in a node, in the order in which they are written. -/
def bodies : Node → List Bytes
  | .leaf _ _ _ => []
  | .branch _ _ shape args content => bodiesAll args ++ bodiesAll content ++ shape.body?.toList

/-- The bodies of the verbatim environments in a sequence. -/
def bodiesAll : List Node → List Bytes
  | [] => []
  | n :: ns => bodies n ++ bodiesAll ns

end

mutual

/-- A body belongs to a verbatim environment. -/
theorem exists_of_mem_bodies {b : Bytes} : ∀ n : Node, b ∈ n.bodies → ∃ m ∈ n.preorder, m.body? = some b
  | .leaf _ _ _, h => by cases h
  | .branch span hints shape args content, h => by
    rw [bodies, List.mem_append, List.mem_append] at h
    rcases h with (h | h) | h
    · obtain ⟨m, hm, hbody⟩ := exists_of_mem_bodiesAll args h
      exact ⟨m, by simp [preorder, hm], hbody⟩
    · obtain ⟨m, hm, hbody⟩ := exists_of_mem_bodiesAll content h
      exact ⟨m, by simp [preorder, hm], hbody⟩
    · exact ⟨.branch span hints shape args content, by simp [preorder], by simpa [body?] using h⟩

theorem exists_of_mem_bodiesAll {b : Bytes} :
    ∀ ns : List Node, b ∈ bodiesAll ns → ∃ m ∈ preorderAll ns, m.body? = some b
  | [], h => by cases h
  | n :: ns, h => by
    rw [bodiesAll, List.mem_append] at h
    rcases h with h | h
    · obtain ⟨m, hm, hbody⟩ := exists_of_mem_bodies n h
      exact ⟨m, by simp [preorderAll, hm], hbody⟩
    · obtain ⟨m, hm, hbody⟩ := exists_of_mem_bodiesAll ns h
      exact ⟨m, by simp [preorderAll, hm], hbody⟩

end

end Node

/-- Verbatim text between delimiters is on one line, but for its name. A newline is part of the name only if the registry
    has such a command. -/
structure Leaf.VerbLine (r : Registry) (escape name delimiter content : Bytes) : Prop where
  escape_eq : escape = Parse.escape
  delimiter : Byte.newline ∉ delimiter
  content : Byte.newline ∉ content
  name : Byte.newline ∈ name → r.isVerb [Byte.newline] = true

/-- The pieces of a leaf that are not cut at newlines have none, but for the name of a command. -/
def Node.Lined (r : Registry) : Node → Prop
  | .leaf _ _ (.verb escape name delimiter content) => Leaf.VerbLine r escape name delimiter content
  | .leaf _ _ (.foreign _ _) => False
  | _ => True

namespace Node

variable {r : Registry}

theorem isolates_leaf {span : Span} {hints : Hints} {l : Leaf} (h : (leaf span hints l).Lined r)
    (hverb : (leaf span hints l).isNewlineVerb = false) : Isolates [] l.rawPieces := by
  cases l with
  | text | space | parbreak => exact isolates_linePieces _
  | comment c before =>
    exact ((isolates_linePieces c.leading).append (isolates_linePieces _)).append (isolates_linePieces c.suffix)
  | verb escape name delimiter content =>
    obtain ⟨rfl, hdelimiter, hcontent, -⟩ := h
    have hname : Byte.newline ∉ name := by simpa [isNewlineVerb, Bytes.hasNewline] using hverb
    have hescape : Byte.newline ∉ Parse.escape := by decide
    exact .singleton (by simp [Parse.escape]) (by simp [hescape, hname, hdelimiter, hcontent])
  | foreign => cases h
  | missing => exact .nil

mutual

/-- **The pieces of a node isolate its newlines.** -/
theorem isolates_rawPieces : ∀ n : Node, Each (Lined r) n → Each (·.isNewlineVerb = false) n →
    Isolates n.bodies n.rawPieces
  | .leaf _ _ _, h, hverb => isolates_leaf h.self hverb.self
  | .branch _ _ shape args content, h, hverb => by
    obtain ⟨-, hargs, hcontent⟩ := each_branch_iff.1 h
    obtain ⟨-, hargs', hcontent'⟩ := each_branch_iff.1 hverb
    have hinside := (isolates_rawPiecesAll args hargs hargs').append (isolates_rawPiecesAll content hcontent hcontent')
    have hall := (shape.isolates_openingPieces.append hinside).append shape.isolates_closingPieces
    simpa [bodies, rawPieces] using hall

theorem isolates_rawPiecesAll : ∀ ns : List Node, All (Lined r) ns → All (·.isNewlineVerb = false) ns →
    Isolates (bodiesAll ns) (rawPiecesAll ns)
  | [], _, _ => .nil
  | n :: ns, h, hverb => by
    obtain ⟨hn, hns⟩ := all_cons_iff.1 h
    obtain ⟨hn', hns'⟩ := all_cons_iff.1 hverb
    exact (isolates_rawPieces n hn hn').append (isolates_rawPiecesAll ns hns hns')

end

theorem rawAll_eq_flatten (ns : List Node) : rawAll ns = (ns.map raw).flatten := by
  induction ns with
  | nil => rfl
  | cons n ns ih => rw [rawAll_cons, List.map_cons, List.flatten_cons, ih]

end Node

/-! ## parsed trees -/

namespace Parse

open Node (All Each Lined all_nil all_cons each_leaf each_branch)

section

variable {r : Registry} {span : Span} {shape : Shape} {args content : List Node}

/-- Verbatim text is read from one line, but for its name. -/
theorem verbLine {c d e stop : Cursor} {t : Token} {name star marker text : Bytes} (token : c.token = .ok (t, d))
    (kind : t.kind = .command name) (known : r.isVerb name = true)
    (star_eq : star = [] ∨ star = [Byte.star] ∧ name = bytes "verb")
    (content : e.delimited = .ok ((marker, text), stop)) :
    Leaf.VerbLine r escape (name ++ star) marker text := by
  obtain ⟨⟨a, tail, rfl, hblank, htail⟩, hline⟩ := Cursor.exists_of_delimited content
  refine ⟨rfl, fun hmem => ?_, hline, fun hmem => ?_⟩
  · rcases List.mem_cons.1 hmem with rfl | hmem
    · cases hblank
    · cases htail _ hmem
  · have hname : Byte.newline ∈ name := by
      refine (List.mem_append.1 hmem).resolve_right fun hstar => ?_
      rcases star_eq with rfl | ⟨rfl, -⟩ <;> revert hstar <;> decide
    by_cases hnewline : name = [Byte.newline]
    · rwa [← hnewline]
    · exact absurd hname ((named_of_token token kind).newline hnewline)

/-- Whatever is read is lined. -/
def Judgement.Lined (r : Registry) : Judgement → Prop
  | .sequence _ _ _ s => All (Node.Lined r) s.nodes
  | .item _ _ n _ => Each (Node.Lined r) n
  | .arguments _ _ _ args _ => All (Node.Lined r) args

theorem lined_branch (hargs : All (Lined r) args) (hcontent : All (Lined r) content) :
    Each (Lined r) (.branch span {} shape args content) :=
  each_branch trivial hargs hcontent

theorem lined_plainLeaf? {mode : Mode} {k : Token.Kind} {l : Leaf} (plain : plainLeaf? mode k = some l) :
    (Node.leaf span {} l).Lined r := by
  rcases plainLeaf?_cases plain with rfl | ⟨raw, -, rfl⟩ | ⟨raw, -, rfl⟩ | ⟨c, -, rfl⟩ <;> trivial

/-- **Whatever is read is lined.** -/
theorem Derives.lined {j : Judgement} (h : Derives r j) : j.Lined r := by
  induction h with
  | stop token closed => exact all_nil _
  | next token pass more head rest ihHead ihRest => exact Node.all_link id ihHead ihRest
  | leaf token plain => exact each_leaf (lined_plainLeaf? plain)
  | script token kind sign taken ih => exact lined_branch ih (all_nil _)
  | group token kind content closed ih => exact lined_branch (all_nil _) ih
  | formula token kind content closed ih => exact lined_branch (all_nil _) ih
  | dollar token kind content closed half ih => exact lined_branch (all_nil _) ih
  | emptyDollars token kind => exact lined_branch (all_nil _) (all_nil _)
  | environment token kind opening nodes taken content closed closing ihTaken ihContent =>
    exact lined_branch ihTaken ihContent
  | verbatim token kind opening raw taken content ih => exact lined_branch ih (all_nil _)
  | verb token kind known free starred star_eq content => exact each_leaf (verbLine token kind known star_eq content)
  | command token kind known free taken ih => exact lined_branch ih (all_nil _)
  | done => exact all_nil _
  | absent missing others ih => exact ih
  | star sign others ih => exact all_cons (lined_branch (all_nil _) (all_cons (each_leaf trivial) (all_nil _))) ih
  | optional sign content closed others ihContent ihOthers => exact all_cons (lined_branch (all_nil _) ihContent) ihOthers
  | braced sign content closed others ihContent ihOthers => exact all_cons (lined_branch (all_nil _) ihContent) ihOthers
  | bareCommand token kind known free others ih =>
    exact all_cons (lined_branch (all_nil _) (all_cons (lined_branch (all_nil _) (all_nil _)) (all_nil _))) ih
  | bareCharacter sign inert content others ih =>
    exact all_cons (lined_branch (all_nil _) (all_cons (each_leaf trivial) (all_nil _))) ih

end

theorem each_lined_of_document {r : Registry} {src : Bytes} {tree : Node} (h : document r src = .ok tree) :
    Each (Lined r) tree := by
  obtain ⟨body, hbody, rfl⟩ := derives_of_document h
  exact lined_branch (all_nil _) hbody.lined

/-- No verbatim text has a newline in its name unless the registry asks for it. -/
theorem isNewlineVerb_of_lined {r : Registry} {n : Node} (h : n.Lined r) (hr : r.isVerb [Byte.newline] = false) :
    n.isNewlineVerb = false := by
  unfold Node.isNewlineVerb
  split
  · refine Bool.eq_false_iff.2 fun hname => ?_
    have hknown := h.name (by simpa [Bytes.hasNewline] using hname)
    rw [hr] at hknown
    cases hknown
  · rfl

/-- **The pieces of a parsed node isolate line breaks.** Every piece is a newline, or text on one line that is not empty,
    or the whole body of a verbatim environment, and all such bodies are among the pieces, in order. The one exception
    is verbatim text between delimiters whose command is named by a newline, which a document holds only if the registry
    defines such a command. The pieces make up the text of the node, and the text of a sequence is that of its nodes. -/
theorem rawPieces_isolate_newlines {r : Registry} {src : Bytes} {tree : Node} (h : document r src = .ok tree) :
    (∀ n ∈ tree.preorder, (∀ m ∈ n.preorder, m.isNewlineVerb = false) →
      Isolates n.bodies n.rawPieces ∧
      ∀ piece ∈ n.rawPieces, piece = [Byte.newline] ∨ piece ≠ [] ∧ Byte.newline ∉ piece ∨
        ∃ m ∈ n.preorder, m.body? = some piece) ∧
    (r.isVerb [Byte.newline] = false → ∀ n ∈ tree.preorder, n.isNewlineVerb = false) ∧
    (∀ n ∈ tree.preorder, n.rawPieces.flatten = n.raw) ∧
    ∀ ns : List Node, Node.rawAll ns = (ns.map Node.raw).flatten := by
  have hlined := each_lined_of_document h
  refine ⟨fun n hn hverb => ?_, fun hr n hn => ?_, fun n _ => rfl, Node.rawAll_eq_flatten⟩
  · have hisolates := Node.isolates_rawPieces n (hlined.of_mem_preorder hn) hverb
    refine ⟨hisolates, fun piece hpiece => ?_⟩
    exact (hisolates.cases_of_mem hpiece).imp_right (Or.imp_right (Node.exists_of_mem_bodies n))
  · exact isNewlineVerb_of_lined (hlined n hn) hr

/-- The body of a verbatim environment is one piece with its newline, and the newline before it is a piece of its own. -/
theorem rawPieces_isolate_newlines_verbatim :
    ∃ tree, document .builtin (bytes "\\verb|a|\n\\begin\x7bverbatim\x7dx\ny\\end\x7bverbatim\x7d") = .ok tree ∧
      tree.rawPieces = [bytes "\\verb|a|", [Byte.newline], bytes "\\begin\x7bverbatim\x7d", bytes "x\ny",
        bytes "\\end\x7bverbatim\x7d"] ∧
      Isolates [bytes "x\ny"] tree.rawPieces ∧ tree.rawPieces.flatten = tree.raw := by
  obtain ⟨tree, htree⟩ := exists_ok_of_isOk
    (x := document .builtin (bytes "\\verb|a|\n\\begin\x7bverbatim\x7dx\ny\\end\x7bverbatim\x7d")) (by decide +kernel)
  have hpieces : (tree.rawPieces, tree.bodies) = ([bytes "\\verb|a|", [Byte.newline],
      bytes "\\begin\x7bverbatim\x7d", bytes "x\ny", bytes "\\end\x7bverbatim\x7d"], [bytes "x\ny"]) := by
    cases htree
    decide +kernel
  obtain ⟨hpieces, hbodies⟩ := Prod.mk.inj hpieces
  obtain ⟨hisolates, hverbs, hflatten, -⟩ := rawPieces_isolate_newlines htree
  have hverb := hverbs (by decide +kernel)
  have hself : tree ∈ tree.preorder := Each.self (P := (· ∈ tree.preorder)) fun _ hm => hm
  exact ⟨tree, htree, hpieces, hbodies ▸ (hisolates tree hself hverb).1, hflatten tree hself⟩

/-- With a command that is named by a newline, a piece holds one. -/
example :
    (match Registry.empty.defineAll [([Byte.newline], { verb := true })] [] with
      | .ok r => (document r (bytes "\\\n|x|")).toOption.map Node.rawPieces
      | .error _ => none) = some [bytes "\\\n|x|"] := by
  decide +kernel

end Parse

end TexTidy
