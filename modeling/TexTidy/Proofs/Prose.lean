import Mathlib.Data.List.SplitBy
import TexTidy.Proofs.Complete
import TexTidy.Proofs.Lossless
import TexTidy.Proofs.WordFill

/-!
# TexTidy.Proofs.Prose

A source without special bytes is wrapped word by word. `wordWrap` says what that means and knows nothing of tokens,
trees or layouts: the source is cut into runs of white space and of anything else, the runs into paragraphs, and each
paragraph is wrapped greedily.

Between the two stands the list of words with the gap before each (`Spelled`). It is what the parser reads, what the
printer lays out, and it can be read off the output again, which differs from the source in the white space only. So
formatting once more changes nothing.
-/

namespace TexTidy.Prose

open Bytes (ink)
open Layout (Doc WordGap IsWord setOnto wordLine fillWords)
open Wrap (wrap wrapOnto)

/-! ## the text that is wanted -/

/-- The longest runs of white space and of anything else. -/
def runs (src : Bytes) : List Bytes :=
  src.splitBy fun a b => isBlank a == isBlank b

/-- Whether a run is white space with two newlines or more. -/
def endsParagraph (run : Bytes) : Bool :=
  run.all isBlank && decide (2 ≤ run.count Byte.newline)

/-- The words of the paragraphs that runs are parted into. -/
def parted (runs : List Bytes) : List (List Bytes) :=
  (runs.splitOnP endsParagraph).map fun part => part.filter fun run => !run.all isBlank

/-- The words of the paragraphs of a source. -/
def paragraphs (src : Bytes) : List (List Bytes) :=
  (parted (runs src)).filter fun words => !words.isEmpty

/-- A source whose paragraphs are wrapped greedily, with an empty line between any two of them. -/
def wordWrap (measure : Bytes → Nat) (width : Int) (src : Bytes) : Bytes :=
  Bytes.unlines ((List.intercalate [[]] ((paragraphs src).map (wrap measure width))).map (Bytes.join [Byte.space]))

/-! ## words and gaps -/

/-- A run of bytes that are neither white space nor special. -/
structure IsPlainWord (w : Bytes) : Prop where
  ne_nil : w ≠ []
  plain : ∀ b ∈ w, isBlank b = false ∧ isActive b = false

/-- What white space between two words is. -/
def gapOf (blank : Bytes) : WordGap :=
  if 2 ≤ blank.count Byte.newline then .paragraph else .space

/-- The text behind a word: more words, each with the gap before it, and white space at the end. -/
inductive Continues : List (WordGap × Bytes) → Bytes → Prop
  | ends {t} (white : ink t = []) : Continues [] t
  | next {gap blank w t gs} (some : blank ≠ []) (white : ink blank = []) (kind : gapOf blank = gap)
      (word : IsPlainWord w) (rest : Continues gs t) : Continues ((gap, w) :: gs) (blank ++ (w ++ t))

/-- A source that holds a word and the words behind it. -/
inductive Spelled (w : Bytes) (gs : List (WordGap × Bytes)) : Bytes → Prop
  | mk {lead t} (white : ink lead = []) (word : IsPlainWord w) (rest : Continues gs t) :
      Spelled w gs (lead ++ (w ++ t))

theorem IsPlainWord.isWord {w : Bytes} (h : IsPlainWord w) : IsWord w := by
  refine ⟨h.ne_nil, fun b hb => ?_⟩
  have hblank := (h.plain b hb).1
  simp only [isBlank, Bool.or_eq_false_iff, beq_eq_false_iff_ne] at hblank
  exact ⟨by simp [isPad, hblank], hblank.1.1.2⟩

theorem IsPlainWord.exists_cons {w : Bytes} (h : IsPlainWord w) :
    ∃ b rest, w = b :: rest ∧ isBlank b = false ∧ isActive b = false := by
  obtain ⟨b, rest, rfl⟩ := List.exists_cons_of_ne_nil h.ne_nil
  exact ⟨b, rest, rfl, h.plain b (by simp)⟩

section

variable {gs : List (WordGap × Bytes)} {t : Bytes}

/-- A word ends where the text behind it begins. -/
theorem Continues.head (h : Continues gs t) : ∀ b ∈ t.head?, isBlank b = true := by
  cases h with
  | ends white => exact fun b hb => Bytes.ink_eq_nil_iff.1 white b (List.mem_of_mem_head? hb)
  | next some white =>
    intro b hb
    rw [List.head?_append_of_ne_nil _ some] at hb
    exact Bytes.ink_eq_nil_iff.1 white b (List.mem_of_mem_head? hb)

theorem Continues.isPlainWord (h : Continues gs t) : ∀ p ∈ gs, IsPlainWord p.2 := by
  induction h with
  | ends => simp
  | next _ _ _ word _ ih => exact List.forall_mem_cons.2 ⟨word, ih⟩

end

/-- A text is white space and what begins with something else. -/
theorem exists_blank_append (s : Bytes) :
    ∃ blank rest, s = blank ++ rest ∧ ink blank = [] ∧ ∀ b ∈ rest.head?, isBlank b = false := by
  refine ⟨s.takeWhile isBlank, s.dropWhile isBlank, List.takeWhile_append_dropWhile.symm,
    Bytes.ink_eq_nil_iff.2 (List.all_eq_true.1 List.all_takeWhile), fun b hb => ?_⟩
  have hhead := List.head?_dropWhile_not isBlank s
  rw [Option.mem_def.1 hb] at hhead
  simpa using hhead

/-- What begins with no white space is a word and what begins with white space. -/
theorem exists_word_append {s : Bytes} (hactive : ∀ b ∈ s, isActive b = false) (hne : s ≠ [])
    (hhead : ∀ b ∈ s.head?, isBlank b = false) :
    ∃ w rest, s = w ++ rest ∧ IsPlainWord w ∧ ∀ b ∈ rest.head?, isBlank b = true := by
  have hsplit : s.takeWhile (!isBlank ·) ++ s.dropWhile (!isBlank ·) = s := List.takeWhile_append_dropWhile
  refine ⟨_, _, hsplit.symm, ⟨?_, fun b hb => ⟨?_, hactive b ((List.takeWhile_sublist _).mem hb)⟩⟩, fun b hb => ?_⟩
  · obtain ⟨b, rest, rfl⟩ := List.exists_cons_of_ne_nil hne
    simp [hhead b rfl]
  · simpa using List.all_eq_true.1 (List.all_takeWhile : (s.takeWhile (!isBlank ·)).all (!isBlank ·) = true) b hb
  · have hend := List.head?_dropWhile_not (!isBlank ·) s
    rw [Option.mem_def.1 hb] at hend
    simpa using hend

/-- Text that begins with white space is words and gaps. -/
theorem exists_continues {t : Bytes} (hactive : ∀ b ∈ t, isActive b = false) (hhead : ∀ b ∈ t.head?, isBlank b = true) :
    ∃ gs, Continues gs t := by
  -- Each step takes white space and a word off the text.
  induction hlength : t.length using Nat.strong_induction_on generalizing t with
  | _ n shorter =>
    obtain ⟨blank, rest, rfl, hblank, hrest⟩ := exists_blank_append t
    by_cases hend : rest = []
    · exact ⟨[], .ends (by simpa [hend] using hblank)⟩
    · have hsome : blank ≠ [] := by
        rintro rfl
        obtain ⟨b, more, rfl⟩ := List.exists_cons_of_ne_nil hend
        simpa [hrest b rfl] using hhead b rfl
      obtain ⟨w, t, rfl, hw, ht⟩ :=
        exists_word_append (fun b hb => hactive b (List.mem_append_right _ hb)) hend hrest
      have hpos := List.length_pos_iff.2 hsome
      obtain ⟨gs, hgs⟩ := shorter t.length (by simp at hlength; omega) (fun b hb => hactive b (by simp [hb])) ht rfl
      exact ⟨_, .next hsome hblank rfl hw hgs⟩

/-- **Every source without special bytes is white space, or it is words and gaps.** -/
theorem exists_spelled {src : Bytes} (hactive : ∀ b ∈ src, isActive b = false) :
    ink src = [] ∨ ∃ w gs, Spelled w gs src := by
  obtain ⟨lead, rest, rfl, hlead, hrest⟩ := exists_blank_append src
  by_cases hend : rest = []
  · exact .inl (by simpa [hend] using hlead)
  · obtain ⟨w, t, rfl, hw, ht⟩ :=
      exists_word_append (fun b hb => hactive b (List.mem_append_right _ hb)) hend hrest
    obtain ⟨gs, hgs⟩ := exists_continues (fun b hb => hactive b (by simp [hb])) ht
    exact .inr ⟨w, gs, ⟨hlead, hw, hgs⟩⟩

/-! ## the paragraphs of words and gaps -/

/-- A run goes on as long as its bytes are of one kind. -/
theorem runs_append {s rest : Bytes} {blank : Bool} (hne : s ≠ []) (hs : ∀ b ∈ s, isBlank b = blank)
    (hrest : ∀ b ∈ rest.head?, isBlank b = !blank) : runs (s ++ rest) = s :: runs rest := by
  have hchain : s.IsChain fun a b => (isBlank a == isBlank b) = true :=
    List.Pairwise.isChain (List.pairwise_of_forall_mem_list fun a ha b hb => by simp [hs a ha, hs b hb])
  have happend : runs (s ++ rest) = runs s ++ runs rest := by
    refine List.splitBy_append fun a ha b hb => ?_
    rw [hs a (List.mem_of_mem_getLast? ha), hrest b hb]
    cases blank <;> rfl
  rw [happend, runs, List.splitBy_of_isChain hne hchain]
  rfl

theorem runs_blank {s rest : Bytes} (hne : s ≠ []) (hs : ink s = []) (hrest : ∀ b ∈ rest.head?, isBlank b = false) :
    runs (s ++ rest) = s :: runs rest :=
  runs_append hne (Bytes.ink_eq_nil_iff.1 hs) hrest

theorem runs_word {w t : Bytes} (hw : IsPlainWord w) (ht : ∀ b ∈ t.head?, isBlank b = true) :
    runs (w ++ t) = w :: runs t :=
  runs_append hw.ne_nil (fun b hb => (hw.plain b hb).1) ht

theorem parted_nil : parted [] = [[]] := rfl

theorem parted_word {w : Bytes} (hw : IsPlainWord w) (rs : List Bytes) :
    parted (w :: rs) = (parted rs).modifyHead (w :: ·) := by
  obtain ⟨b, rest, rfl, hb, -⟩ := hw.exists_cons
  obtain ⟨part, parts, heq⟩ := List.exists_cons_of_ne_nil (List.splitOnP_ne_nil endsParagraph rs)
  simp [parted, endsParagraph, List.splitOnP_cons_eq_if_modifyHead, hb, heq]

theorem parted_blank {s : Bytes} (hs : ink s = []) (rs : List Bytes) :
    parted (s :: rs) = if gapOf s = .paragraph then [] :: parted rs else parted rs := by
  have hall : s.all isBlank = true := List.all_eq_true.2 (Bytes.ink_eq_nil_iff.1 hs)
  obtain ⟨part, parts, heq⟩ := List.exists_cons_of_ne_nil (List.splitOnP_ne_nil endsParagraph rs)
  by_cases hcount : 2 ≤ s.count Byte.newline
  · simp [parted, endsParagraph, List.splitOnP_cons_eq_if_modifyHead, hall, gapOf, hcount]
  · simp [parted, endsParagraph, List.splitOnP_cons_eq_if_modifyHead, hall, gapOf, hcount, heq]

/-- The words that go on with the paragraph of the word before them, and those of the paragraphs after it. -/
def split : List (WordGap × Bytes) → List Bytes × List (List Bytes)
  | [] => ([], [])
  | (.space, w) :: gs => (w :: (split gs).1, (split gs).2)
  | (.paragraph, w) :: gs => ([], (w :: (split gs).1) :: (split gs).2)

/-- The paragraphs of words and gaps. There can be one more behind them, which holds no word. -/
theorem exists_parted_eq {gs : List (WordGap × Bytes)} {t : Bytes} (h : Continues gs t) :
    ∃ others, parted (runs t) = (split gs).1 :: others ∧
      (others.filter fun words => !words.isEmpty) = (split gs).2 := by
  induction h with
  | @ends t white =>
    by_cases hne : t = []
    · exact ⟨[], by simp [hne, runs, parted_nil, split], rfl⟩
    · have hruns : runs t = t :: runs [] := by simpa using @runs_blank t [] hne white (by simp)
      rw [hruns, parted_blank white]
      -- White space at the end parts nothing off, but it can have two newlines.
      split
      · exact ⟨[[]], rfl, rfl⟩
      · exact ⟨[], rfl, rfl⟩
  | @next gap blank w t gs some white kind word rest ih =>
    obtain ⟨others, hparted, hothers⟩ := ih
    obtain ⟨b, more, hmore, hb, -⟩ := word.exists_cons
    rw [runs_blank some white (by simp [hmore, hb]), runs_word word rest.head, parted_blank white, parted_word word,
      hparted, kind]
    cases gap with
    | space => exact ⟨others, rfl, hothers⟩
    | paragraph => exact ⟨(w :: (split gs).1) :: others, rfl, by simp [hothers, split]⟩

theorem paragraphs_blank {src : Bytes} (h : ink src = []) : paragraphs src = [] := by
  obtain ⟨others, hparted, hothers⟩ := exists_parted_eq (.ends h)
  simp [paragraphs, hparted, hothers, split]

theorem Spelled.paragraphs_eq {w : Bytes} {gs : List (WordGap × Bytes)} {src : Bytes} (h : Spelled w gs src) :
    paragraphs src = (w :: (split gs).1) :: (split gs).2 := by
  obtain ⟨white, word, rest⟩ := h
  rename_i lead t
  obtain ⟨others, hparted, hothers⟩ := exists_parted_eq rest
  have hword : parted (runs (w ++ t)) = (w :: (split gs).1) :: others := by
    rw [runs_word word rest.head, parted_word word, hparted]
    rfl
  by_cases hne : lead = []
  · simp [paragraphs, hne, hword, hothers]
  · obtain ⟨b, more, hmore, hb, -⟩ := word.exists_cons
    rw [paragraphs, runs_blank hne white (by simp [hmore, hb]), parted_blank white, hword]
    split <;> simp [hothers]

/-- The lines of words and gaps are those of their paragraphs. -/
theorem setOnto_eq (measure : Bytes → Nat) (width : Int) (line : List Bytes) (gs : List (WordGap × Bytes)) :
    setOnto measure width line gs =
      List.intercalate [[]] (wrapOnto measure width line (split gs).1 :: (split gs).2.map (wrap measure width)) := by
  induction gs generalizing line with
  | nil => simp [setOnto, split, wrapOnto]
  | cons p gs ih =>
    obtain ⟨gap, w⟩ := p
    cases gap with
    | paragraph => simp [setOnto, split, wrapOnto, wrap, ih, List.intercalate_cons_cons]
    | space =>
      by_cases hfits : Wrap.columns measure (line ++ [w]) ≤ width
      · simp [setOnto, split, wrapOnto, hfits, ih]
      · simp only [setOnto, split, wrapOnto, hfits, if_false, ih]
        cases (split gs).2 <;> simp [List.intercalate_cons_cons]

/-- How words and gaps are written. -/
def written (measure : Bytes → Nat) (width : Int) (w : Bytes) (gs : List (WordGap × Bytes)) : Bytes :=
  Bytes.unlines ((setOnto measure width [w] gs).map (Bytes.join [Byte.space]))

theorem Spelled.wordWrap_eq {w : Bytes} {gs : List (WordGap × Bytes)} {src : Bytes} (h : Spelled w gs src)
    (measure : Bytes → Nat) (width : Int) : wordWrap measure width src = written measure width w gs := by
  rw [wordWrap, h.paragraphs_eq, written, setOnto_eq]
  rfl

/-- Behind the words of a line come the gaps and words that are left, with the white space of the layout. -/
theorem exists_continues_unlines (measure : Bytes → Nat) (width : Int) {gs : List (WordGap × Bytes)}
    (hgs : ∀ p ∈ gs, IsPlainWord p.2) (line : List Bytes) (w : Bytes) :
    ∃ t, Bytes.unlines ((setOnto measure width (line ++ [w]) gs).map (Bytes.join [Byte.space])) =
        line.flatMap (· ++ [Byte.space]) ++ (w ++ t) ∧ Continues gs t := by
  induction gs generalizing line w with
  | nil => exact ⟨[Byte.newline], by simp [setOnto, Layout.join_concat], .ends rfl⟩
  | cons p gs ih =>
    obtain ⟨gap, v⟩ := p
    obtain ⟨hv, hgs'⟩ := List.forall_mem_cons.1 hgs
    obtain ⟨t, ht, hrest⟩ := ih hgs' [] v
    rw [List.nil_append] at ht
    cases gap with
    | paragraph =>
      refine ⟨[Byte.newline, Byte.newline] ++ (v ++ t), ?_, .next (by simp) rfl rfl hv hrest⟩
      simp [setOnto, Layout.join_concat, ht, show Bytes.join [Byte.space] [] = [] from rfl]
    | space =>
      rw [setOnto]
      split
      · obtain ⟨t, ht, hrest⟩ := ih hgs' (line ++ [w]) v
        exact ⟨[Byte.space] ++ (v ++ t), by rw [ht]; simp, .next (by simp) rfl rfl hv hrest⟩
      · refine ⟨[Byte.newline] ++ (v ++ t), ?_, .next (by simp) rfl rfl hv hrest⟩
        simp [Layout.join_concat, ht]

/-- **What is written are the same words and gaps.** -/
theorem spelled_written (measure : Bytes → Nat) (width : Int) {w : Bytes} {gs : List (WordGap × Bytes)} {src : Bytes}
    (h : Spelled w gs src) : Spelled w gs (written measure width w gs) := by
  obtain ⟨-, word, rest⟩ := h
  obtain ⟨t, ht, hrest⟩ := exists_continues_unlines measure width rest.isPlainWord [] w
  have heq : written measure width w gs = [] ++ (w ++ t) := ht
  rw [heq]
  exact ⟨rfl, word, hrest⟩

/-! ## reading -/

/-- The leaf of a gap. -/
def gapLeaf (raw : Bytes) : WordGap → Leaf
  | .space => .space raw
  | .paragraph => .parbreak raw

/-- Nodes that are white space. -/
def IsWhite (ns : List Node) : Prop :=
  ∀ n ∈ ns, ∃ span raw gap, n = .leaf span {} (gapLeaf raw gap)

/-- The nodes behind a word. -/
inductive Nodes : List (WordGap × Bytes) → List Node → Prop
  | ends {ns} (white : IsWhite ns) : Nodes [] ns
  | next {gap raw w ns gs} (span span' : Span) (rest : Nodes gs ns) :
      Nodes ((gap, w) :: gs) (.leaf span {} (gapLeaf raw gap) :: .leaf span' {} (.text w) :: ns)

/-- The nodes of a source. -/
inductive Tree (w : Bytes) (gs : List (WordGap × Bytes)) : List Node → Prop
  | mk {us ns} (white : IsWhite us) (span : Span) (rest : Nodes gs ns) :
      Tree w gs (us ++ .leaf span {} (.text w) :: ns)

section

variable {c : Cursor} {r : Registry}

theorem token_white {s rest : Bytes} (hne : s ≠ []) (hs : ink s = [])
    (hrest : ∀ b ∈ rest.head?, isBlank b = false ∧ isActive b = false) (hc : c.rest = s ++ rest) :
    ∃ t d, c.token = .ok (t, d) ∧ Parse.plainLeaf? .text t.kind = some (gapLeaf s (gapOf s)) ∧ d.rest = rest := by
  have hhead : rest.head?.any isBlank = false := by
    cases rest with
    | nil => rfl
    | cons b rest => exact (hrest b rfl).1
  have hpercent : rest.head? ≠ some Byte.percent := fun h => by
    have hactive := (hrest _ h).2
    cases hactive
  obtain ⟨htake, hdrop⟩ := Cursor.takeWhile_blank hs hhead
  have hscan : Token.scan? c.inked c.rest =
      some (if 2 ≤ s.count Byte.newline then .parbreak s else .space s) := by
    rw [hc, Cursor.scan?_blank hne hs, Token.scanBlank, htake, hdrop, if_neg fun h => hpercent h.2]
  rw [gapOf]
  split at hscan <;> obtain ⟨t, d, htoken, hkind, hd⟩ := Cursor.token_of_scan? hc hscan <;>
    exact ⟨t, d, htoken, by simp [Parse.plainLeaf?, gapLeaf, *], hd⟩

theorem token_word {w t : Bytes} (hw : IsPlainWord w) (ht : ∀ b ∈ t.head?, isBlank b = true) (hc : c.rest = w ++ t) :
    ∃ token d, c.token = .ok (token, d) ∧ token.kind = .text w ∧ d.rest = t := by
  have htake : (w ++ t).takeWhile (fun b => !isActive b && !isBlank b) = w := by
    have hend : t.head?.any (fun b => !isActive b && !isBlank b) = false := by
      cases t with
      | nil => rfl
      | cons b t => simp [ht b rfl]
    rw [List.takeWhile_append_of_pos (fun b hb => by simp [hw.plain b hb]), Bytes.takeWhile_eq_nil hend,
      List.append_nil]
  obtain ⟨b, rest, hcons, hblank, hactive⟩ := hw.exists_cons
  refine Cursor.token_of_scan? hc ?_
  rw [hc, hcons, List.cons_append, Token.scan?_text hactive hblank, ← List.cons_append, ← hcons, htake]

/-- A leaf in front of what is read behind it. -/
theorem derives_leaf {t : Token} {d : Cursor} {l : Leaf} {tail : Parse.Sequence} (token : c.token = .ok (t, d))
    (plain : Parse.plainLeaf? .text t.kind = some l) (code : ∀ comment before, l ≠ .comment comment before)
    (rest : Parse.Derives r (.sequence .text .document d tail)) :
    ∃ body span, Parse.Derives r (.sequence .text .document c body) ∧ body.nodes = .leaf span {} l :: tail.nodes := by
  have hmore : t.kind ≠ .endOfInput := fun h => by
    rw [h] at plain
    cases plain
  refine ⟨_, ⟨c.pos, d.pos⟩, .next token rfl hmore (.leaf token plain) rest, ?_⟩
  cases l with
  | comment comment before => exact absurd rfl (code comment before)
  | _ => rfl

theorem derives_end (hc : c.rest = []) :
    ∃ body, Parse.Derives r (.sequence .text .document c body) ∧ body.nodes = [] := by
  obtain ⟨t, d, htoken, hkind, -⟩ := @Cursor.token_of_scan? c .endOfInput [] hc (by rw [hc]; rfl)
  exact ⟨_, .stop htoken (.inr hkind), rfl⟩

theorem gapLeaf_ne_comment (raw : Bytes) (gap : WordGap) (comment : Comment) (before : Bool) :
    gapLeaf raw gap ≠ .comment comment before := by
  cases gap <;> simp [gapLeaf]

/-- **Words and gaps are read as leaves.** -/
theorem Continues.derives {gs : List (WordGap × Bytes)} {t : Bytes} (h : Continues gs t) (hc : c.rest = t) :
    ∃ body, Parse.Derives r (.sequence .text .document c body) ∧ Nodes gs body.nodes := by
  induction h generalizing c with
  | @ends t white =>
    by_cases hne : t = []
    · obtain ⟨body, hbody, hnodes⟩ := derives_end (hc.trans hne)
      exact ⟨body, hbody, .ends (by simp [IsWhite, hnodes])⟩
    · obtain ⟨token, d, htoken, hleaf, hd⟩ := @token_white c t [] hne white (by simp) (by simpa using hc)
      obtain ⟨tail, htail, hnil⟩ := @derives_end d r hd
      obtain ⟨body, span, hbody, hnodes⟩ := derives_leaf htoken hleaf (gapLeaf_ne_comment _ _) htail
      exact ⟨body, hbody, .ends (by simp [IsWhite, hnodes, hnil])⟩
  | @next gap blank w t gs some white kind word rest ih =>
    obtain ⟨b, more, hcons, hblank, hactive⟩ := word.exists_cons
    obtain ⟨token, d, htoken, hleaf, hd⟩ := token_white some white (by simp [hcons, hblank, hactive]) hc
    obtain ⟨token', d', htoken', hkind, hd'⟩ := token_word word rest.head hd
    obtain ⟨tail, htail, hnodes⟩ := ih hd'
    obtain ⟨later, span', hlater, heq⟩ := derives_leaf htoken' (by rw [hkind]; rfl) (by simp) htail
    obtain ⟨body, span, hbody, heq'⟩ := derives_leaf htoken hleaf (gapLeaf_ne_comment _ _) hlater
    refine ⟨body, hbody, ?_⟩
    rw [heq', heq, kind]
    exact .next span span' hnodes

theorem Spelled.derives {w : Bytes} {gs : List (WordGap × Bytes)} {src : Bytes} (h : Spelled w gs src)
    (hc : c.rest = src) : ∃ body, Parse.Derives r (.sequence .text .document c body) ∧ Tree w gs body.nodes := by
  obtain ⟨white, word, rest⟩ := h
  rename_i lead t
  have hword : ∀ {c : Cursor}, c.rest = w ++ t → ∃ body span ns,
      Parse.Derives r (.sequence .text .document c body) ∧
        body.nodes = .leaf span {} (.text w) :: ns ∧ Nodes gs ns := by
    intro c hc
    obtain ⟨token, d, htoken, hkind, hd⟩ := token_word word rest.head hc
    obtain ⟨tail, htail, hnodes⟩ := rest.derives hd
    obtain ⟨body, span, hbody, heq⟩ := derives_leaf htoken (by rw [hkind]; rfl) (by simp) htail
    exact ⟨body, span, _, hbody, heq, hnodes⟩
  by_cases hne : lead = []
  · obtain ⟨body, span, ns, hbody, heq, hnodes⟩ := hword (by simpa [hne] using hc)
    exact ⟨body, hbody, heq ▸ @Tree.mk w gs [] ns (by simp [IsWhite]) span hnodes⟩
  · obtain ⟨b, more, hcons, hblank, hactive⟩ := word.exists_cons
    obtain ⟨token, d, htoken, hleaf, hd⟩ := token_white hne white (by simp [hcons, hblank, hactive]) hc
    obtain ⟨tail, span, ns, htail, heq, hnodes⟩ := hword hd
    obtain ⟨body, span', hbody, heq'⟩ := derives_leaf htoken hleaf (gapLeaf_ne_comment _ _) htail
    rw [heq] at heq'
    exact ⟨body, hbody, heq' ▸ @Tree.mk w gs [_] ns (by simp [IsWhite]) span hnodes⟩

end

/-! ## printing -/

section

variable {ns : List Node} {gs : List (WordGap × Bytes)} {w : Bytes}

theorem IsWhite.isSpace (h : IsWhite ns) : ∀ n ∈ ns, n.isSpace = true := by
  intro n hn
  obtain ⟨span, raw, gap, rfl⟩ := h n hn
  cases gap <;> rfl

theorem IsWhite.leaf (h : IsWhite ns) : ∀ n ∈ ns, ∃ span l, n = .leaf span {} l := by
  intro n hn
  obtain ⟨span, raw, gap, rfl⟩ := h n hn
  exact ⟨span, _, rfl⟩

theorem Nodes.leaf (h : Nodes gs ns) : ∀ n ∈ ns, ∃ span l, n = .leaf span {} l := by
  induction h with
  | ends white => exact white.leaf
  | next span span' rest ih =>
    exact List.forall_mem_cons.2 ⟨⟨span, _, rfl⟩, List.forall_mem_cons.2 ⟨⟨span', _, rfl⟩, ih⟩⟩

theorem Tree.leaf (h : Tree w gs ns) : ∀ n ∈ ns, ∃ span l, n = .leaf span {} l := by
  obtain ⟨white, span, rest⟩ := h
  exact List.forall_mem_append.2 ⟨white.leaf, List.forall_mem_cons.2 ⟨⟨span, _, rfl⟩, rest.leaf⟩⟩

/-- Leaves have no hints of their own. -/
theorem annotateAll_leaves (r : Registry) (h : ∀ n ∈ ns, ∃ span l, n = Node.leaf span {} l) :
    Node.annotateAll r ns = ns := by
  induction ns with
  | nil => rfl
  | cons n ns ih =>
    obtain ⟨⟨span, l, rfl⟩, hns⟩ := List.forall_mem_cons.1 h
    rw [Node.annotateAll, ih hns, Node.annotate]

theorem hasDocumentClass_leaves (h : ∀ n ∈ ns, ∃ span l, n = Node.leaf span {} l) :
    Print.hasDocumentClass ns = false := by
  refine List.any_eq_false.2 fun n hn => ?_
  obtain ⟨span, l, rfl⟩ := h n hn
  simp [Node.controlName?, Node.command?]

end

open Print (Step Separator Paragraph flow)

/-- What a gap is in a paragraph. -/
def separatorOf : WordGap → Separator
  | .space => .line
  | .paragraph => .paragraph

/-- The steps of gaps and words. -/
def stepsOf (gs : List (WordGap × Bytes)) : List Step :=
  gs.flatMap fun p => [.separator (separatorOf p.1), .content (.text p.2)]

section

variable {measure : Bytes → Nat} {previous : Option Node} {ns us : List Node} {gs : List (WordGap × Bytes)}

/-- White space at the end is left out. -/
theorem flow_trailing {preamble inked : Bool} (h : ∀ n ∈ ns, n.isSpace = true) :
    flow measure .text preamble true inked previous ns = [] := by
  induction ns generalizing inked previous with
  | nil => rfl
  | cons n ns ih =>
    obtain ⟨hn, hns⟩ := List.forall_mem_cons.1 h
    have hall : ns.all Node.isSpace = true := List.all_eq_true.2 hns
    simp [flow, hn, hall, ih hns]

/-- White space at the start is left out. -/
theorem exists_flow_leading {preamble : Bool} (h : ∀ u ∈ us, u.isSpace = true) :
    ∃ before, flow measure .text preamble true false previous (us ++ ns) =
      flow measure .text preamble true false before ns := by
  induction us generalizing previous with
  | nil => exact ⟨previous, rfl⟩
  | cons u us ih =>
    obtain ⟨hu, hus⟩ := List.forall_mem_cons.1 h
    obtain ⟨before, heq⟩ := @ih (some u) hus
    exact ⟨before, by simp [flow, hu, heq]⟩

theorem flow_word {inked : Bool} (span : Span) (w : Bytes) :
    flow measure .text false true inked previous (.leaf span {} (.text w) :: ns) =
      .content (.text w) :: flow measure .text false true true (some (.leaf span {} (.text w))) ns := by
  simp [flow, Node.isSpace, Print.nodeSteps, Print.isInline, Print.formulaBreak, Node.command?, Node.standsAlone,
    Print.nodeDoc]

theorem flow_gap (span span' span'' : Span) (v w raw : Bytes) (gap : WordGap) :
    flow measure .text false true true (some (.leaf span {} (.text v)))
        (.leaf span' {} (gapLeaf raw gap) :: .leaf span'' {} (.text w) :: ns) =
      .separator (separatorOf gap) :: .content (.text w) ::
        flow measure .text false true true (some (.leaf span'' {} (.text w))) ns := by
  rw [flow, Bool.true_or, flow_word]
  -- The gap is not at the end, since a word follows, and neither neighbour asks for a line break.
  cases gap <;>
    simp [gapLeaf, separatorOf, Node.isSpace, Print.nodeSteps, Print.spaceBetween, Print.present, Node.isMissing,
      Node.standsAlone, Node.hints]

theorem Nodes.flow_eq (h : Nodes gs ns) (span : Span) (w : Bytes) :
    flow measure .text false true true (some (.leaf span {} (.text w))) ns = stepsOf gs := by
  induction h generalizing span w with
  | ends white => exact flow_trailing white.isSpace
  | next span' span'' rest ih =>
    rw [flow_gap, ih]
    rfl

theorem Tree.flow_eq {w : Bytes} (h : Tree w gs ns) :
    flow measure .text false true false none ns = .content (.text w) :: stepsOf gs := by
  obtain ⟨white, span, rest⟩ := h
  obtain ⟨before, heq⟩ := exists_flow_leading white.isSpace
  rw [heq, flow_word, rest.flow_eq]

end

/-- A word is an item of its own. -/
def wordDoc (w : Bytes) : Doc :=
  .concat [.text w]

/-- Gaps and words behind an item that holds a word. -/
theorem fillParts_stepsOf (done : List Doc) (w : Bytes) (gs : List (WordGap × Bytes)) :
    (({ done := done, item := [.text w] } : Paragraph).steps (stepsOf gs)).fillParts =
      done.reverse ++ fillWords wordDoc w gs := by
  induction gs generalizing done w with
  | nil => simp [stepsOf, Paragraph.steps, Paragraph.fillParts, Paragraph.settle, fillWords, wordDoc]
  | cons p gs ih =>
    obtain ⟨gap, v⟩ := p
    have hdoc : (separatorOf gap).doc = gap.doc := by cases gap <;> rfl
    have hsteps : ({ done := done, item := [.text w] } : Paragraph).steps (stepsOf ((gap, v) :: gs)) =
        ({ done := (separatorOf gap).doc :: wordDoc w :: done, item := [.text v] } : Paragraph).steps (stepsOf gs) :=
      rfl
    rw [hsteps, ih, hdoc]
    simp [fillWords]

/-- **The layout of words and gaps is one fill.** -/
theorem Tree.doc_eq {w : Bytes} {gs : List (WordGap × Bytes)} {ns : List Node} (h : Tree w gs ns)
    (measure : Bytes → Nat) (span : Span) (hints : Hints) :
    Print.doc measure (.branch span hints .document [] ns) = .fill (fillWords wordDoc w gs) := by
  rw [Print.doc, Print.nodeDoc, hasDocumentClass_leaves h.leaf, h.flow_eq]
  exact congrArg Doc.fill (fillParts_stepsOf [] w gs)

end TexTidy.Prose

namespace TexTidy.Format

open Prose
open Layout (Sets Opens setOnto wordLine)

theorem format_of_derives {options : Options} {src : Bytes} {body : Parse.Sequence}
    (h : Parse.Derives options.registry (.sequence .text .document (.ofOffset src 0) body))
    (hleaf : ∀ n ∈ body.nodes, ∃ span l, n = Node.leaf span {} l) :
    format options src = .ok (endLine ((pageOf options.measure options.width options.indent).render
      (Print.doc options.measure (.branch ⟨0, src.length⟩ {} .document [] body.nodes)))) := by
  rw [format, run, Parse.document_of_derives h]
  simp [Except.map, Node.print, Node.annotate, annotateAll_leaves _ hleaf, Registry.hints, pageOf, Node.annotateAll]

/-- Of white space nothing is left. -/
theorem format_blank (options : Options) {src : Bytes} (h : Bytes.ink src = []) : format options src = .ok [] := by
  obtain ⟨body, hbody, hnodes⟩ := @Continues.derives (.ofOffset src 0) options.registry [] src (.ends h) rfl
  rw [format_of_derives hbody hnodes.leaf]
  cases hnodes with
  | ends white =>
    rw [Print.doc, Print.nodeDoc, flow_trailing white.isSpace]
    rfl

theorem width_pageOf (options : Options) :
    ((pageOf options.measure options.width options.indent).width : Int) =
      if options.width ≤ 0 then 80 else options.width := by
  unfold pageOf positiveOr
  split
  · rfl
  · exact Int.toNat_of_nonneg (by omega)

/-- Lines that are set need only the newline at their end. -/
theorem endLine_of_sets {lines : List Bytes} {text : Bytes} (h : Sets lines text) :
    endLine text = Bytes.unlines lines := by
  obtain ⟨b, hlast, -, hb⟩ := h.last
  obtain ⟨front, rfl⟩ := List.getLast?_eq_some_iff.1 hlast
  rw [endLine_concat hb, h.eq]

/-- **Words and gaps are written as lines.** -/
theorem format_spelled (options : Options) {w : Bytes} {gs : List (Layout.WordGap × Bytes)} {src : Bytes}
    (h : Spelled w gs src) :
    format options src = .ok (written options.measure (if options.width ≤ 0 then 80 else options.width) w gs) := by
  obtain ⟨body, hbody, htree⟩ := @Spelled.derives (.ofOffset src 0) options.registry w gs src h rfl
  obtain ⟨-, word, rest⟩ := h
  have hopens : Opens (pageOf options.measure options.width options.indent) 0 [] [] .blank :=
    ⟨rfl, fun v => by simp [Layout.Sheet.blank]⟩
  have hsets := Layout.sets_renderFill (fun _ => .inr rfl) _ 0 .broken [] (.inl (Int.natCast_nonneg _)) hopens
    (.inl rfl) word.isWord fun p hp => (rest.isPlainWord p hp).isWord
  have hlines : wordLine 0 = Bytes.join [Byte.space] := by
    funext line
    cases line <;> rfl
  rw [hlines, width_pageOf, Int.ofNat_zero, Int.sub_zero] at hsets
  rw [format_of_derives hbody htree.leaf, htree.doc_eq, Layout.Page.render_eq_stripEnd]
  exact congrArg Except.ok ((congrArg endLine hsets.stripEnd).trans (endLine_of_sets hsets))

/-- **A source without special bytes is wrapped word by word.** Its paragraphs are parted by white space with two
    newlines or more, the words of each are wrapped greedily, and one empty line stands between two paragraphs; each
    line ends in a newline, and of white space alone nothing is left. Formatting the result changes nothing. -/
theorem format_eq_wordWrap (options : Options) {src : Bytes} (hplain : ∀ b ∈ src, isActive b = false) :
    let out := wordWrap options.measure (if options.width ≤ 0 then 80 else options.width) src
    format options src = .ok out ∧ format options out = .ok out := by
  intro out
  rcases exists_spelled hplain with hblank | ⟨w, gs, hspelled⟩
  · have hout : out = [] := by simp [out, wordWrap, paragraphs_blank hblank]
    rw [hout]
    exact ⟨format_blank options hblank, format_blank options rfl⟩
  · have hout : out = written options.measure (if options.width ≤ 0 then 80 else options.width) w gs :=
      hspelled.wordWrap_eq _ _
    rw [hout]
    exact ⟨format_spelled options hspelled, format_spelled options (spelled_written _ _ hspelled)⟩

theorem format_eq_wordWrap_paragraphs :
    let options : Options := { width := 9, measure := List.length }
    let src := bytes "  one two\n three\r\n \n four-and-twenty x \n\n"
    (∀ b ∈ src, isActive b = false) ∧
      wordWrap List.length 9 src = bytes "one two\nthree\n\nfour-and-twenty\nx\n" ∧
      format options src = .ok (wordWrap List.length 9 src) ∧
      format options (wordWrap List.length 9 src) = .ok (wordWrap List.length 9 src) := by
  intro options src
  have hplain : ∀ b ∈ src, isActive b = false := by decide +kernel
  exact ⟨hplain, by decide +kernel, format_eq_wordWrap options hplain⟩

end TexTidy.Format
