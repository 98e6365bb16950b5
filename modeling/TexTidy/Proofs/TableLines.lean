import TexTidy.Proofs.TableSpelling

/-!
# TexTidy.Proofs.TableLines

The lines of a table, one after the other. `AtLine` is the state at the start of a line. A line takes it to
the start of the next one, behind the nodes that the line was made of: a rule (`AtLine.rules`), or a row with
what ends it (`AtLine.row`). `AtLine.rows` follows the rows to the end of the table.

`spells_tableDoc`: what is written of a table is a spelling of its content.
-/

namespace TexTidy

open Bytes (ink)
open Text (Tight Even tight_append even_append)
open Layout (broken Writes Atom)
open Node (hasGlue hasApart beginsApart trim)
open Table (Cell Grid Row Ruled Celled Ending Split)

/-- At the start of a line: `as` is still to be written, and the nodes `ns` are left. -/
def AtLine (r : Registry) (keep : Bool) (P : Bytes → Prop) (s : Bytes) (ns : List Node) (as : List Atom)
    (t : Bytes) : Prop :=
  ∃ x b us w, Underway r keep P s x b us ns ∧ Parted b s x w ∧ Writes as (s ++ x ++ w) t

section

variable {r : Registry} {keep : Bool} {P : Bytes → Prop} {s t x w : Bytes} {b : Before}
  {us ns : List Node} {n : Node} {as : List Atom}

namespace Underway

/-- A line break behind a node. -/
theorem hardLine (h : Underway r keep P s x b us ns) (hw : ink w = [])
    (hwrites : Writes (.hardLine :: as) (s ++ x ++ w) t) : AtLine r keep P s ns as t := by
  obtain ⟨indent, hwrites⟩ := hwrites
  obtain ⟨v, hbroken, hv, hcount⟩ := Layout.broken_append h.tight hw indent
  rw [hbroken] at hwrites
  exact ⟨x, b, us, v, h, parted_of_ne_nil hv (Print.ne_nil_of_count hcount), hwrites⟩

/-- A comment and the line break behind it, which takes the blanks at the end of the comment with it. -/
theorem remarkLine {c : Comment} {line : Bytes} (h : Underway r keep P s x b us (n :: ns))
    (hn : n.comment? = some c) (hw : ink w = []) (hline : line <+: c.content)
    (hsame : line.trimEnd isLineBlank = c.content.trimEnd isLineBlank)
    (hwrites : Writes (.hardLine :: as) (s ++ x ++ w ++ Byte.percent :: line) t) :
    AtLine r keep P s ns as t := by
  obtain ⟨indent, hwrites⟩ := hwrites
  obtain ⟨kept, pads, rfl, hpads, hstrip⟩ := Text.stripEnd_append
    (tight_append (s := s ++ x ++ w) (t := [Byte.percent]) rfl rfl) line
  have hbroken : broken indent (s ++ x ++ w ++ Byte.percent :: (kept ++ pads)) =
      s ++ (x ++ w ++ Byte.percent :: (kept ++ [Byte.newline])) ++ Bytes.spaces indent := by
    rw [broken]
    simpa using congrArg (· ++ Byte.newline :: Bytes.spaces indent) hstrip
  rw [hbroken] at hwrites
  have hcontent := (h.ready n List.mem_cons_self).line c hn
  have hkept : Byte.newline ∉ kept := fun hmem => hcontent (hline.subset (List.mem_append_left _ hmem))
  have hnext := h.remark hn hw hkept (by
    rw [← hsame, Bytes.trimEnd_append _ fun b hb => ?_]
    simp [isLineBlank, hpads b hb])
  refine ⟨_, {}, [], Bytes.spaces indent, hnext, ⟨Bytes.ink_spaces _, fun _ => rfl, ?_⟩, hwrites⟩
  by_cases hzero : Bytes.spaces indent = []
  · rw [hzero, List.append_nil, List.getLast?_append, List.getLast?_append, List.getLast?_cons,
      List.getLast?_append]
    exact show some Byte.newline ≠ some Byte.backslash by decide
  · exact getLast?_ne_backslash (Bytes.ink_spaces _) hzero _

end Underway

namespace AtLine

/-- Each rule has a line of its own. -/
theorem rules {rules rs : List Node} (hrules : Ruled rules rs)
    (h : AtLine r keep P s (rs ++ ns) (rules.flatMap (fun n => [.text n.raw, .hardLine]) ++ as) t) :
    AtLine r keep P s ns as t := by
  induction hrules with
  | nil => exact h
  | cons spaces draws rest ih =>
    obtain ⟨x, b, us, w, hway, hparted, hwrites⟩ := h
    rw [List.append_assoc, List.cons_append] at hway
    obtain ⟨hsolid, hcode, -⟩ := Underway.solid_of_controlName? draws
    have hnext := (hway.pass spaces).code hsolid hcode hparted.white fun _ => hparted.loose
    refine ih (hnext.hardLine (w := []) rfl ?_)
    simpa [Writes] using hwrites

/-- The line of a row and what ends it. -/
theorem row (grid : Grid) {row : Row} {cs es : List Node} (hcells : Celled row.cells row.separators cs)
    (hending : Ending row es) (htext : ∀ c ∈ row.cells, (Cell.text c).2 = true)
    (h : AtLine r keep P s (cs ++ (es ++ ns)) (.text (grid.line row) :: .hardLine :: as) t) :
    AtLine r keep P s ns as t := by
  obtain ⟨x, b, us, w, hway, hparted, hwrites⟩ := h
  -- a comment is written behind what is left of the row without blanks at its end
  have hcomment {x' w' : Bytes} {b' : Before} {us' : List Node} {m : Node} {c : Comment}
      (hnext : Underway r keep P s x' b' us' (m :: ns)) (hsame : x ++ w ++ grid.body row = x' ++ w')
      (hw' : ink w' = []) (hown : row.comment = some m) (hremark : m.comment? = some c) :
      AtLine r keep P s ns as t := by
    obtain ⟨v, hstrip, hv⟩ := Text.exists_stripEnd_space (t := grid.body row) hparted.plain hnext.tight hw'
      (by simpa using congrArg (s ++ ·) hsame)
    obtain ⟨v', hv', hline⟩ : ∃ v', ink v' = [] ∧
        s ++ x ++ w ++ grid.line row = s ++ x' ++ v' ++ Byte.percent :: c.content := by
      rw [Grid.line, hown, Option.bind_some, hremark]
      dsimp only
      split
      · next hempty =>
        rw [List.isEmpty_iff.1 hempty, List.append_nil] at hstrip
        exact ⟨v, hv, by rw [List.nil_append, hstrip]⟩
      · refine ⟨v ++ [Byte.space], by simp [hv], ?_⟩
        rw [← List.append_assoc, ← List.append_assoc, hstrip]
        simp
    exact hnext.remarkLine hremark hv' List.prefix_rfl rfl (hline ▸ hwrites)
  cases hending with
  | separator ends sep bare =>
    have hnext := hway.rowSeparator grid hcells ends sep htext hparted
    refine hnext.hardLine (w := []) rfl ?_
    simpa [Writes, Grid.line, bare] using hwrites
  | comment unclosed own remark =>
    obtain ⟨line, x', b', us', w', hbody, hnext, hsame, hw', -⟩ := hway.front grid hcells htext hparted
    rw [unclosed] at hbody
    exact hcomment hnext (hbody ▸ hsame) hw' own remark
  | both ends sep own remark =>
    have hnext := hway.rowSeparator grid hcells ends sep htext hparted
    exact hcomment hnext (List.append_nil _).symm rfl own remark

theorem line_ne_nil (grid : Grid) {row : Row} {es : List Node} (hending : Ending row es) :
    grid.line row ≠ [] := by
  cases hending with
  | separator ends sep bare =>
    have hraw : row.rowSeparator ≠ [] := by
      rw [sep]
      exact (Underway.solid_of_controlName? ends).2.2
    have hclosed (line : Bytes) : (if line.isEmpty then row.rowSeparator
        else line ++ [Byte.space] ++ row.rowSeparator) ≠ [] := by
      split
      · exact hraw
      · simp
    rw [Grid.line, bare]
    unfold Grid.body
    simp only [Option.bind_none, List.isEmpty_eq_false_iff.2 hraw]
    exact hclosed _
  | comment unclosed own remark => simp [Grid.line, own, remark]
  | both ends sep own remark => simp [Grid.line, own, remark]

/-- The last row, if nothing ends it. -/
theorem last (grid : Grid) {row : Row} {rs cs : List Node} (hrules : Ruled row.rules rs)
    (hcells : Celled row.cells row.separators cs) (hunclosed : row.rowSeparator = [])
    (hbare : row.comment = none) (htext : ∀ c ∈ row.cells, (Cell.text c).2 = true)
    (h : AtLine r keep P s (rs ++ cs)
      ((grid.lines row).flatMap (fun l => [.text l, .hardLine]) ++ as) t) :
    ∃ y, Writes as (s ++ y) t ∧ P y := by
  rw [Grid.lines, List.flatMap_append, List.flatMap_map, List.append_assoc] at h
  obtain ⟨x, b, us, w, hway, hparted, hwrites⟩ := rules hrules h
  rw [← List.append_nil cs] at hway
  obtain ⟨line, x', b', us', w', hbody, hnext, hsame, hw', -⟩ := hway.front grid hcells htext hparted
  have hline : grid.line row = line := by
    rw [Grid.line, hbare, Option.bind_none, hbody, hunclosed]
    rfl
  rw [hline] at hwrites
  split at hwrites
  · next hskip =>
    -- rules only: there is no line for the row
    have hnil := List.isEmpty_iff.1 (Bool.and_eq_true_iff.1 hskip).1
    rw [hnil, List.append_nil] at hsame
    refine ⟨x' ++ w', ?_, hnext.done hw'⟩
    rw [← hsame]
    simpa using hwrites
  · have hwrites : Writes (.hardLine :: as) (s ++ x' ++ w') t := by
      rw [List.append_assoc, ← hsame]
      simpa [Writes] using hwrites
    obtain ⟨x'', b'', us'', w'', hend, hparted', hwrites⟩ := hnext.hardLine hw' hwrites
    exact ⟨x'' ++ w'', by simpa using hwrites, hend.done hparted'.white⟩

/-- The rows of a table. -/
theorem rows (grid : Grid) {rows : List Row} (hrows : Split rows ns)
    (htext : ∀ row ∈ rows, ∀ c ∈ row.cells, (Cell.text c).2 = true)
    (h : AtLine r keep P s ns
      ((rows.flatMap grid.lines).flatMap (fun l => [.text l, .hardLine]) ++ as) t) :
    ∃ y, Writes as (s ++ y) t ∧ P y := by
  induction hrows with
  | @nil vs spaces =>
    obtain ⟨x, b, us, w, hway, hparted, hwrites⟩ := h
    rw [← List.append_nil vs] at hway
    exact ⟨x ++ w, by simpa using hwrites, (hway.pass spaces).done hparted.white⟩
  | last rules cells unclosed bare =>
    rw [List.flatMap_singleton] at h
    exact last grid rules cells unclosed bare (htext _ (by simp)) h
  | @cons row rs cs es rows ns hrules hcells hending hrest ih =>
    refine ih (fun row' hrow' => htext row' (by simp [hrow'])) (AtLine.row grid hcells hending
      (htext row (by simp)) (AtLine.rules hrules ?_))
    rw [List.flatMap_cons, List.flatMap_append, Grid.lines, if_neg (by simp [line_ne_nil grid hending]),
      List.flatMap_append, List.flatMap_map] at h
    simpa using h

theorem format (measure : Bytes → Nat) (columns : List Table.Column) {rows : List Row} (hrows : Split rows ns)
    (htext : ∀ row ∈ rows, ∀ c ∈ row.cells, (Cell.text c).2 = true)
    (h : AtLine r keep P s ns
      ((Table.format measure columns rows).flatMap (fun l => [.text l, .hardLine]) ++ as) t) :
    ∃ y, Writes as (s ++ y) t ∧ P y :=
  AtLine.rows _ hrows htext h

end AtLine

/-! ## the table -/

/-- A line break in front of each line is one behind each line, and one in front of all. -/
theorem lineAtoms_append (lines : List Bytes) (as : List Atom) :
    Print.lineAtoms lines ++ .hardLine :: as =
      .hardLine :: (lines.flatMap (fun l => [.text l, .hardLine]) ++ as) := by
  induction lines with
  | nil => rfl
  | cons l lines ih => simpa [Print.lineAtoms] using ih

/-- The comment at the head of a table ends its first row, with nothing before it. -/
theorem exists_of_tableHead? {rows : List Row} {c : Comment} (hrows : Split rows ns)
    (h : Print.tableHead? rows = some c) :
    ∃ vs m ms, ns = vs ++ m :: ms ∧ (∀ v ∈ vs, v.isSpace = true) ∧ m.comment? = some c ∧
      Split rows.tail ms := by
  unfold Print.tableHead? at h
  split at h
  · next row rest =>
    split at h
    · next hrow =>
      obtain ⟨hc, -⟩ := Option.filter_eq_some_iff.1 h
      simp only [Row.isComment, Bool.and_eq_true, List.isEmpty_iff] at hrow
      obtain ⟨⟨⟨⟨⟨hsome, hrules⟩, hseps⟩, hend⟩, hone⟩, hblank⟩ := hrow
      cases hrows with
      | last rules cells unclosed bare => simp [bare] at hsome
      | @cons _ rs cs es _ ns hruled hcelled hending hrest =>
        rw [hrules] at hruled
        cases hruled
        have hspaces := Underway.spaces_of_blank hcelled (by simp [hseps, hone, hblank])
        cases hending with
        | separator ends sep bare => simp [bare] at hsome
        | comment unclosed own remark =>
          rw [own, Option.bind_some] at hc
          exact ⟨cs, _, ns, by simp, hspaces, hc, hrest⟩
        | both ends sep own remark =>
          exact absurd (sep.symm.trans hend) (Underway.solid_of_controlName? ends).2.2
    · cases h
  · cases h

/-- **What is written of a table is a spelling of its content.** -/
theorem spells_tableDoc {measure : Bytes → Nat} {args content : List Node}
    (hgrid : Table.isGrid (Row.split content) = true) (htight : Tight s) (heven : Even s)
    (hsettled : b.hungry = true → beginsApart content = false) (hapart : hasApart r content = false)
    (hglue : hasGlue content = false) (hready : ∀ n ∈ content, n.Ready r keep)
    (hwrites : Writes ((Print.tableDoc measure args content).atoms ++ .hardLine :: as) s t) :
    ∃ y, Writes as (s ++ y) t ∧ Spells r keep (.nodes b content) y := by
  have hstart : Underway r keep (Spells r keep (.nodes b content)) s [] b [] content :=
    ⟨by simpa using htight, by simp, fun _ => by simpa using heven, hsettled, hapart, hglue, hready,
      fun y hy => hy⟩
  have hsplit := Table.split_split content
  have htext : ∀ row ∈ Row.split content, ∀ c ∈ row.cells, (Cell.text c).2 = true := fun row hrow c hc =>
    List.all_eq_true.1 (Bool.and_eq_true_iff.1 (List.all_eq_true.1 hgrid row hrow)).1 c hc
  unfold Print.tableDoc at hwrites
  dsimp only at hwrites
  generalize (if (Print.columnSpec args).length = _ then Print.columnSpec args else []) = columns at hwrites
  split at hwrites
  · next c hhead =>
    simp only [Layout.Doc.atoms, Layout.Doc.atomsAll, List.append_nil, Print.atomsAll_lineDocs,
      List.append_assoc, lineAtoms_append] at hwrites
    obtain ⟨vs, m, ms, hcontent, hspaces, hm, hrest⟩ := exists_of_tableHead? hsplit hhead
    have hway : Underway r keep (Spells r keep (.nodes b content)) s [] b [] (vs ++ m :: ms) := by
      rw [← hcontent]
      exact hstart
    have htrimmed : c.content.trimEnd isLineBlank <+: c.content := List.rdropWhile_prefix isLineBlank _
    have hshift : ink (if c.leading.isEmpty then [] else [Byte.space]) = [] := by
      split <;> rfl
    refine AtLine.format measure columns hrest (fun row hrow => htext row (List.mem_of_mem_tail hrow))
      ((hway.pass hspaces).remarkLine hm hshift htrimmed ?_ ?_)
    · exact List.rdropWhile_idempotent isLineBlank c.content
    · simpa [Writes, Print.commentText] using hwrites
  · simp only [Layout.Doc.atoms, Layout.Doc.atomsAll, List.append_nil, Print.atomsAll_lineDocs,
      List.nil_append, lineAtoms_append] at hwrites
    exact AtLine.format measure columns hsplit htext (hstart.hardLine (w := []) rfl (by simpa using hwrites))

end

end TexTidy
