import TexTidy.Cli
import TexTidy.Config.Toml

/-!
# TexTidy.Proofs.CheckWrite

Writing and checking agree. Both go through the files in order up to the first one that can not be read or not be
formatted. Writing replaces what the files before that one hold and touches nothing else; checking touches nothing and
names those files that writing would change.

One file is a step of the run: `formatFile_of_fails` and `formatFile_of_reads` say all that a step can do. What a run
over all files does follows by induction (`formatFiles_write`, `formatFiles_check`). Writing one file must not change
what a later one is read as, and this is where the paths have to lead to different files. Which place a path leads to is
for the surroundings to say, so that all of this holds for links and for paths that are not written in the shortest way.
-/

namespace TexTidy

/-! ## files -/

namespace Surroundings

variable {world after : Surroundings} {path other content : Bytes} {place : Place}

/-- Two paths lead to the same place. -/
def SameFile (world : Surroundings) (p q : Bytes) : Prop :=
  ∃ place, world.place p = .ok place ∧ world.place q = .ok place

instance (world : Surroundings) (p q : Bytes) : Decidable (world.SameFile p q) :=
  match hp : world.place p, hq : world.place q with
  | .ok a, .ok b => decidable_of_iff (a = b) (by simp [SameFile, hp, hq, eq_comm])
  | .error _, _ => isFalse (by simp [SameFile, hp])
  | .ok _, .error _ => isFalse (by simp [SameFile, hq])

theorem readFile_eq_ok_iff :
    world.readFile path = .ok content ↔ ∃ place, world.place path = .ok place ∧ world.found place = .file content := by
  unfold readFile lookUp
  cases world.place path with
  | error e => simp [Except.map]
  | ok place =>
    simp only [Except.map, Except.ok.injEq, exists_eq_left']
    cases world.found place <;> simp

theorem readFile_congr (h : after.lookUp path = world.lookUp path) : after.readFile path = world.readFile path := by
  rw [readFile, readFile, h]

/-- The surroundings differ at most in what is kept where one of the paths leads. -/
structure ChangedAt (world after : Surroundings) (paths : List Bytes) : Prop where
  place : after.place = world.place
  frame : ∀ place, (∀ path ∈ paths, world.place path ≠ .ok place) → after.found place = world.found place

theorem changedAt_self (world : Surroundings) (paths : List Bytes) : ChangedAt world world paths :=
  ⟨rfl, fun _ _ => rfl⟩

/-- What is changed first at one path and then at others is changed at all of them. -/
theorem ChangedAt.cons {middle : Surroundings} {paths : List Bytes} (hfirst : ChangedAt world middle [path])
    (hrest : ChangedAt middle after paths) : ChangedAt world after (path :: paths) := by
  refine ⟨hrest.place.trans hfirst.place, fun place hplace => ?_⟩
  obtain ⟨hpath, hpaths⟩ := List.forall_mem_cons.1 hplace
  rw [hrest.frame place (by rwa [hfirst.place]), hfirst.frame place (by simpa using hpath)]

/-- A path that leads to none of the changed places leads to what it led to. -/
theorem ChangedAt.lookUp {paths : List Bytes} (h : ChangedAt world after paths)
    (hpaths : ∀ p ∈ paths, ¬world.SameFile p path) : after.lookUp path = world.lookUp path := by
  unfold Surroundings.lookUp
  rw [h.place]
  cases hplace : world.place path with
  | error e => rfl
  | ok place =>
    rw [Except.map, Except.map, h.frame place fun p hp hsame => hpaths p hp ⟨place, hsame, hplace⟩]

theorem writeFile_of_place (h : world.place path = .ok place) : world.writeFile path content =
    { world with found := fun p => if p = place then .file content else world.found p } := by
  rw [writeFile, h]

/-- A file can be read back after it was written. -/
theorem readFile_writeFile (h : world.place path = .ok place) :
    (world.writeFile path content).readFile path = .ok content := by
  rw [readFile_eq_ok_iff, writeFile_of_place h]
  exact ⟨place, h, if_pos rfl⟩

theorem changedAt_writeFile (h : world.place path = .ok place) :
    ChangedAt world (world.writeFile path content) [path] := by
  rw [writeFile_of_place h]
  refine ⟨rfl, fun other hother => if_neg ?_⟩
  rintro rfl
  exact hother path List.mem_cons_self h

end Surroundings

namespace Cli

open Surroundings (ChangedAt)

variable {options : Format.Options} {world after : Surroundings} {path old new : Bytes} {r : Run}

/-! ## what a file comes to -/

/-- Whether a file can not be read or not be formatted. -/
def fails (options : Format.Options) (world : Surroundings) (path : Bytes) : Bool :=
  match world.readFile path with
  | .error _ => true
  | .ok src => !(format options src).isOk

/-- Whether formatting a file would change it. -/
def isUnformatted (options : Format.Options) (world : Surroundings) (path : Bytes) : Bool :=
  match world.readFile path with
  | .error _ => false
  | .ok src =>
    match format options src with
    | .error _ => false
    | .ok new => new != src

/-- The index of the first file that can not be read or not be formatted, or the number of files. -/
def firstFailure (options : Format.Options) (world : Surroundings) (files : List Bytes) : Nat :=
  files.findIdx (fails options world)

/-- The file holds `old`, which is formatted to `new`. -/
structure Reads (options : Format.Options) (world : Surroundings) (path old new : Bytes) : Prop where
  read : world.readFile path = .ok old
  format : format options old = .ok new

theorem reads_of_not_fails (h : fails options world path = false) : ∃ old new, Reads options world path old new := by
  unfold fails at h
  split at h
  · cases h
  · next src hread =>
    cases hformat : format options src with
    | error e => simp [hformat, Except.isOk, Except.toBool] at h
    | ok new => exact ⟨src, new, hread, hformat⟩

theorem Reads.isUnformatted (h : Reads options world path old new) :
    Cli.isUnformatted options world path = (new != old) := by
  simp only [Cli.isUnformatted, h.read, h.format]

theorem fails_congr (h : after.readFile path = world.readFile path) :
    fails options after path = fails options world path := by
  rw [fails, fails, h]

/-! ## one file -/

/-- A file that fails ends the run and changes nothing. -/
theorem formatFile_of_fails (action : Action) (h : fails options r.world path = true) :
    ∃ e, formatFile options action path r = (r, some e) := by
  unfold fails at h
  unfold formatFile
  cases hread : r.world.readFile path with
  | error e => exact ⟨_, rfl⟩
  | ok src =>
    cases hrun : Format.run options src with
    | error e => exact ⟨.document path e, by simp only [hrun]⟩
    | ok result => simp [hread, format, hrun, Except.map, Except.isOk, Except.toBool] at h

/-- Notes leave everything else as it is. -/
structure Noted (r s : Run) : Prop where
  world : s.world = r.world
  output : s.output = r.output
  unformatted : s.unformatted = r.unformatted

/-- A file that was formatted is finished in a run that differs in its events only. -/
theorem formatFile_of_reads (action : Action) (h : Reads options r.world path old new) :
    ∃ s, Noted r s ∧ formatFile options action path r = (finishFile action path old new s, none) := by
  have hformat := h.format
  cases hrun : Format.run options old with
  | error e => simp [format, hrun, Except.map] at hformat
  | ok result =>
    have hnew : result.text = new := by simpa [format, hrun, Except.map] using hformat
    subst hnew
    refine ⟨(r.noteReport result).note (.fileFormatted path (result.text ≠ old)), ?_, ?_⟩
    · unfold Run.noteReport
      cases result.report with
      | none => exact ⟨rfl, rfl, rfl⟩
      | some report => exact ⟨rfl, rfl, rfl⟩
    · simp only [formatFile, h.read, hrun]

/-- Writing one file: it holds its new content, and every other file holds what it held. -/
theorem formatFile_write (h : Reads options r.world path old new) :
    ∃ s, formatFile options .write path r = (s, none) ∧ s.output = r.output ∧ s.unformatted = r.unformatted ∧
      s.world.readFile path = .ok new ∧ ChangedAt r.world s.world [path] := by
  obtain ⟨s, hnoted, hstep⟩ := formatFile_of_reads .write h
  obtain ⟨place, hplace, -⟩ := Surroundings.readFile_eq_ok_iff.1 h.read
  refine ⟨_, hstep, ?_⟩
  by_cases hsame : new = old
  · simp only [finishFile, if_pos hsame, hnoted.world, hnoted.output, hnoted.unformatted]
    exact ⟨trivial, trivial, by rw [hsame, h.read], Surroundings.changedAt_self _ _⟩
  · simp only [finishFile, if_neg hsame, hnoted.world, hnoted.output, hnoted.unformatted]
    exact ⟨trivial, trivial, Surroundings.readFile_writeFile hplace, Surroundings.changedAt_writeFile hplace⟩

/-- Checking one file: it is named if it is not formatted. -/
theorem formatFile_check (h : Reads options r.world path old new) :
    ∃ s, formatFile options .check path r = (s, none) ∧ s.world = r.world ∧
      s.output = r.output ++ (if isUnformatted options r.world path then path ++ [Byte.newline] else []) ∧
      s.unformatted = (r.unformatted || isUnformatted options r.world path) := by
  obtain ⟨s, hnoted, hstep⟩ := formatFile_of_reads .check h
  refine ⟨_, hstep, ?_⟩
  rw [h.isUnformatted]
  by_cases hsame : new = old
  · simp [finishFile, hsame, hnoted.world, hnoted.output, hnoted.unformatted]
  · simp [finishFile, hsame, Run.print, hnoted.world, hnoted.output]

/-! ## all files -/

theorem firstFailure_congr {files : List Bytes} (h : ∀ path ∈ files, after.readFile path = world.readFile path) :
    firstFailure options after files = firstFailure options world files := by
  unfold firstFailure
  induction files with
  | nil => rfl
  | cons path files ih =>
    rw [List.findIdx_cons, List.findIdx_cons, fails_congr (h path List.mem_cons_self),
      ih fun q hq => h q (List.mem_cons_of_mem path hq)]

theorem firstFailure_cons_of_fails {files : List Bytes} (h : fails options world path = true) :
    firstFailure options world (path :: files) = 0 := by
  rw [firstFailure, List.findIdx_cons, h, cond_true]

theorem firstFailure_cons_of_not_fails {files : List Bytes} (h : fails options world path = false) :
    firstFailure options world (path :: files) = firstFailure options world files + 1 := by
  rw [firstFailure, List.findIdx_cons, h, cond_false, firstFailure]

/-- The files that were done hold what they are formatted to, and every other file holds what it held. -/
structure Written (options : Format.Options) (before after : Surroundings) (done : List Bytes) : Prop extends
    ChangedAt before after done where
  content : ∀ path ∈ done, ∃ old new, Reads options before path old new ∧ after.readFile path = .ok new

/-- One more file is written before the others. -/
theorem Written.cons {middle : Surroundings} {done : List Bytes} (hreads : Reads options world path old new)
    (hpath : middle.readFile path = .ok new) (hchanged : ChangedAt world middle [path])
    (hdistinct : ∀ p ∈ done, ¬world.SameFile path p) (h : Written options middle after done) :
    Written options world after (path :: done) := by
  refine ⟨hchanged.cons h.toChangedAt, fun p hp => ?_⟩
  rcases List.mem_cons.1 hp with rfl | hp
  · refine ⟨old, new, hreads, ?_⟩
    rw [Surroundings.readFile_congr (h.lookUp fun q hq hsame => ?_), hpath]
    obtain ⟨place, hq', hp'⟩ := hsame
    rw [hchanged.place] at hq' hp'
    exact hdistinct q hq ⟨place, hp', hq'⟩
  · obtain ⟨old', new', hreads', hafter⟩ := h.content p hp
    refine ⟨old', new', ⟨?_, hreads'.format⟩, hafter⟩
    rw [← hreads'.read, Surroundings.readFile_congr (hchanged.lookUp (by simpa using hdistinct p hp))]

/-- Writing changes no file exactly if none of those that were done is unformatted. -/
theorem Written.unchanged_iff {done : List Bytes} (h : Written options world after done) :
    (∀ place, after.found place = world.found place) ↔ ∀ path ∈ done, isUnformatted options world path = false := by
  have hfound : ∀ path ∈ done, ∃ place old new, world.place path = .ok place ∧ world.found place = .file old ∧
      after.found place = .file new ∧ isUnformatted options world path = (new != old) := by
    intro path hpath
    obtain ⟨old, new, hreads, hafter⟩ := h.content path hpath
    obtain ⟨place, hplace, hold⟩ := Surroundings.readFile_eq_ok_iff.1 hreads.read
    obtain ⟨place', hplace', hnew⟩ := Surroundings.readFile_eq_ok_iff.1 hafter
    rw [h.place, hplace] at hplace'
    cases hplace'
    exact ⟨place, old, new, hplace, hold, hnew, hreads.isUnformatted⟩
  constructor
  · intro hsame path hpath
    obtain ⟨place, old, new, -, hold, hnew, hunformatted⟩ := hfound path hpath
    have hfile := hsame place
    rw [hold, hnew] at hfile
    cases hfile
    simp [hunformatted]
  · intro hformatted place
    by_cases hdone : ∃ path ∈ done, world.place path = .ok place
    · obtain ⟨path, hpath, hplace⟩ := hdone
      obtain ⟨place', old, new, hplace', hold, hnew, hunformatted⟩ := hfound path hpath
      cases hplace.symm.trans hplace'
      have hsame : new = old := by simpa [hunformatted] using hformatted path hpath
      rw [hold, hnew, hsame]
    · exact h.frame place fun path hpath hplace => hdone ⟨path, hpath, hplace⟩

/-- **Writing replaces the files before the first failure**, prints nothing and fails if there is one. -/
theorem formatFiles_write (files : List Bytes) (r : Run) (hdistinct : files.Pairwise fun p q => ¬r.world.SameFile p q)
    (hr : r.unformatted = false) :
    ∃ s e, formatFiles options .write files r = (s, e) ∧ s.output = r.output ∧
      e.isSome = decide (firstFailure options r.world files < files.length) ∧
      Written options r.world s.world (files.take (firstFailure options r.world files)) := by
  induction files generalizing r with
  | nil => exact ⟨r, none, by simp [formatFiles, hr], rfl, by simp, Surroundings.changedAt_self _ _, by simp⟩
  | cons path files ih =>
    obtain ⟨hpath, hdistinct⟩ := List.pairwise_cons.1 hdistinct
    cases hfails : fails options r.world path with
    | true =>
      obtain ⟨e, he⟩ := formatFile_of_fails .write hfails
      rw [firstFailure_cons_of_fails hfails]
      exact ⟨r, some e, by simp [formatFiles, he], rfl, by simp, Surroundings.changedAt_self _ _, by simp⟩
    | false =>
      obtain ⟨old, new, hreads⟩ := reads_of_not_fails hfails
      obtain ⟨m, hstep, houtput, hunformatted, hnew, hchanged⟩ := formatFile_write hreads
      have hlater : ∀ p ∈ files, m.world.readFile p = r.world.readFile p := fun p hp =>
        Surroundings.readFile_congr (hchanged.lookUp (by simpa using hpath p hp))
      have hsame : ∀ p q, m.world.SameFile p q ↔ r.world.SameFile p q := fun p q => by
        rw [Surroundings.SameFile, Surroundings.SameFile, hchanged.place]
      obtain ⟨s, e, hrun, hs, he, hwritten⟩ := ih m (by simpa only [hsame] using hdistinct) (by rw [hunformatted, hr])
      rw [firstFailure_congr hlater] at he hwritten
      rw [firstFailure_cons_of_not_fails hfails]
      refine ⟨s, e, by rw [formatFiles, hstep]; exact hrun, by rw [hs, houtput], by simp [he], ?_⟩
      exact .cons hreads hnew hchanged (fun p hp => hpath p (List.mem_of_mem_take hp)) hwritten

/-- **Checking names the files before the first failure that are not formatted**, changes nothing, and fails if there is
    a failure or a file to name. -/
theorem formatFiles_check (files : List Bytes) (r : Run) :
    ∃ s e, formatFiles options .check files r = (s, e) ∧ s.world = r.world ∧
      s.output = r.output ++ ((files.take (firstFailure options r.world files)).filter
        (isUnformatted options r.world)).flatMap (· ++ [Byte.newline]) ∧
      e.isSome = (r.unformatted || decide (firstFailure options r.world files < files.length) ||
        (files.take (firstFailure options r.world files)).any (isUnformatted options r.world)) := by
  induction files generalizing r with
  | nil =>
    refine ⟨r, _, rfl, rfl, by simp, ?_⟩
    cases r.unformatted <;> simp
  | cons path files ih =>
    cases hfails : fails options r.world path with
    | true =>
      obtain ⟨e, he⟩ := formatFile_of_fails .check hfails
      rw [firstFailure_cons_of_fails hfails]
      exact ⟨r, some e, by simp [formatFiles, he], rfl, by simp, by simp⟩
    | false =>
      obtain ⟨old, new, hreads⟩ := reads_of_not_fails hfails
      obtain ⟨m, hstep, hworld, houtput, hunformatted⟩ := formatFile_check hreads
      obtain ⟨s, e, hrun, hs, hsoutput, he⟩ := ih m
      rw [hworld] at hs hsoutput he
      rw [firstFailure_cons_of_not_fails hfails]
      refine ⟨s, e, by rw [formatFiles, hstep]; exact hrun, hs, ?_, ?_⟩
      · rw [hsoutput, houtput, List.take_succ_cons, List.filter_cons]
        split <;> simp
      · rw [he, hunformatted, List.take_succ_cons, List.any_cons]
        simp only [List.length_cons, Nat.add_lt_add_iff_right]
        cases r.unformatted <;> cases isUnformatted options r.world path <;> simp

/-! ## the program -/

/-- The configuration and the registry are in order, and documents are formatted with these options. -/
def Options.Valid (o : Options) (decoders : Config.Decoders) (world : Surroundings) (options : Format.Options) : Prop :=
  ∃ config registry, configure decoders o world = .ok config ∧
    config.registry decoders.signatures world = .ok registry ∧
    options = { width := config.width, indent := config.indent, registry }

/-- What a run leaves behind, once its flags are read. -/
def Options.outcome (o : Options) (decoders : Config.Decoders) (input : Bytes) (world : Surroundings) : Outcome :=
  Cli.outcome o.verbose (execute decoders o input world)

/-- What is left behind by writing: the files before the first failure are written, all others are as they were,
    nothing is printed, and the code tells whether there was a failure. -/
structure Outcome.Writes (out : Outcome) (options : Format.Options) (world : Surroundings) (files : List Bytes) :
    Prop where
  written : Written options world out.world (files.take (firstFailure options world files))
  later : ∀ path ∈ files.drop (firstFailure options world files), out.world.lookUp path = world.lookUp path
  output : out.output = []
  code : out.code = if firstFailure options world files < files.length then 1 else 0

/-- What is left behind by checking: all files are as they were, the unformatted ones before the first failure are
    printed, one to a line, and the code tells whether there was a failure or such a file. -/
structure Outcome.Checks (out : Outcome) (options : Format.Options) (world : Surroundings) (files : List Bytes) :
    Prop where
  kept : out.world = world
  output : out.output = ((files.take (firstFailure options world files)).filter
    (isUnformatted options world)).flatMap (· ++ [Byte.newline])
  code : out.code = if firstFailure options world files < files.length ∨
    ∃ path ∈ files.take (firstFailure options world files), isUnformatted options world path = true then 1 else 0

section

variable {o : Options} {decoders : Config.Decoders}

/-- With valid options and files to read, a run goes through the files. -/
theorem execute_of_valid (h : o.Valid decoders world options) (hfiles : o.files ≠ [] ∧ o.files ≠ [[Byte.minus]])
    (input : Bytes) :
    ∃ r : Run, r.world = world ∧ r.output = [] ∧ r.unformatted = false ∧
      execute decoders o input world = formatFiles options o.action o.files r := by
  obtain ⟨config, registry, hconfig, hregistry, rfl⟩ := h
  have hreads : readsInput o.files = false := by simp [readsInput, hfiles.1, hfiles.2]
  refine ⟨if o.config.isEmpty then { world } else Run.note { world } (.configLoaded o.config), ?_, ?_, ?_, ?_⟩
  · split <;> rfl
  · split <;> rfl
  · split <;> rfl
  · simp only [execute, hconfig, hregistry, hreads, if_neg Bool.false_ne_true]

theorem outcome_writes (hvalid : o.Valid decoders world options) (hfiles : o.files ≠ [] ∧ o.files ≠ [[Byte.minus]])
    (haction : o.action = .write) (hdistinct : o.files.Pairwise fun p q => ¬world.SameFile p q) (input : Bytes) :
    (o.outcome decoders input world).Writes options world o.files := by
  obtain ⟨r, rfl, houtput, hunformatted, hexecute⟩ := execute_of_valid hvalid hfiles input
  obtain ⟨s, e, hrun, hs, he, hwritten⟩ := @formatFiles_write options o.files r hdistinct hunformatted
  rw [Options.outcome, hexecute, haction, hrun]
  refine ⟨hwritten, fun path hpath => hwritten.lookUp fun p hp => ?_, hs.trans houtput, ?_⟩
  · have hall := hdistinct
    rw [← List.take_append_drop (firstFailure options r.world o.files) o.files] at hall
    exact (List.pairwise_append.1 hall).2.2 p hp path hpath
  · simp [outcome, he]

theorem outcome_checks (hvalid : o.Valid decoders world options) (hfiles : o.files ≠ [] ∧ o.files ≠ [[Byte.minus]])
    (haction : o.action = .check) (input : Bytes) :
    (o.outcome decoders input world).Checks options world o.files := by
  obtain ⟨r, rfl, houtput, hunformatted, hexecute⟩ := execute_of_valid hvalid hfiles input
  obtain ⟨s, e, hrun, hs, hsoutput, he⟩ := @formatFiles_check options o.files r
  rw [Options.outcome, hexecute, haction, hrun]
  refine ⟨hs, ?_, ?_⟩
  · simp [outcome, hsoutput, houtput]
  · simp [outcome, he, hunformatted]

/-- Two files, neither of which is formatted. A path through a directory leads to the first one, and one that takes the
    first one for a directory leads nowhere. -/
def twoPlaces : Surroundings where
  place path :=
    if path = bytes "sub/../a.tex" then .ok (bytes "a.tex")
    else if path = bytes "a.tex/" then .error (.other (bytes "not a directory"))
    else if path = bytes "b.tex" then .ok (bytes "b.tex")
    else .error .missing
  found place := if place = bytes "a.tex" then .file (bytes "a  b") else .file (bytes "c  d")
  valueOf _ := []

end

end Cli

end TexTidy
