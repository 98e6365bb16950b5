import TexTidy.Registry.Builtin

/-!
# TexTidy.Proofs.Definitions

What holds of every registry that can be built. A registry starts out empty or with the built-in definitions, and
then changes are asked of it, one after the other: a definition, which may be refused, or another registry that is
merged into it.

* Entries: the arguments kept with a specification are those of its signature, and the specification was accepted
  (`WellFormed`). One change keeps this (`WellFormed.after`), hence it holds of every registry that can be reached
  (`Reachable.wellFormed`).
* Look-ups: a definition is seen under its own name and nowhere else (`Definitions.find?_cons`), and merging prefers
  what is merged in (`Definitions.find?_append`).

Registries are compared by their look-ups. Hidden definitions stay in the tables, so registries that know the same
need not be equal.
-/

namespace TexTidy

/-! ## tables -/

/-- Where no name stands twice, a name has the value that stands with it. -/
theorem lookup_eq_some_iff_mem {κ σ : Type} [BEq κ] [LawfulBEq κ] {t : List (κ × σ)} {name : κ} {v : σ}
    (h : (t.map Prod.fst).Nodup) :
    t.lookup name = some v ↔ (name, v) ∈ t := by
  induction t with
  | nil => simp
  | cons x t ih =>
    obtain ⟨key, value⟩ := x
    simp only [List.map_cons, List.nodup_cons] at h
    by_cases hkey : name = key
    · subst hkey
      have hnot : (name, v) ∉ t := fun hmem => h.1 (List.mem_map_of_mem hmem)
      simp [hnot, eq_comm]
    · simp [List.lookup_cons, hkey, beq_eq_false_iff_ne.2 hkey, ih h.2]

namespace Definitions

variable {σ : Type} {P : Entry σ → Prop}

/-- The latest definition hides the earlier ones of its name, and no others. -/
theorem find?_cons (name other : Bytes) (e : Entry σ) (t : Definitions σ) :
    find? ((name, e) :: t) other = if other = name then some e else find? t other := by
  by_cases h : other = name
  · simp [find?, h]
  · simp [find?, List.lookup_cons, h, beq_eq_false_iff_ne.2 h]

theorem find?_append (s t : Definitions σ) (name : Bytes) :
    find? (s ++ t) name = (find? s name).or (find? t name) := by
  simp only [find?, List.lookup_append]

/-- The property holds of every entry that can be looked up. -/
def Holds (P : Entry σ → Prop) (t : Definitions σ) : Prop :=
  ∀ name e, t.find? name = some e → P e

theorem holds_nil : Holds P [] := by
  intro name e h
  cases h

theorem Holds.cons {t : Definitions σ} {name : Bytes} {e : Entry σ} (ht : Holds P t) (he : P e) :
    Holds P ((name, e) :: t) := by
  intro other f hf
  rw [find?_cons] at hf
  split at hf
  · cases hf
    exact he
  · exact ht other f hf

theorem Holds.append {s t : Definitions σ} (hs : Holds P s) (ht : Holds P t) : Holds P (s ++ t) := by
  intro name e h
  rw [find?_append, Option.or_eq_some_iff] at h
  rcases h with h | ⟨-, h⟩
  · exact hs name e h
  · exact ht name e h

end Definitions

/-! ## accepted specifications -/

theorem Mode.isSome_ofName?_iff {name : Bytes} :
    (Mode.ofName? name).isSome = true ↔ name = bytes "text" ∨ name = bytes "math" := by
  unfold Mode.ofName?
  split
  · next h => simp [h]
  · next h => split <;> simp_all

/-- What is known of a command that was accepted: its arguments are those of its signature, and it sets no mode
    or one of the two that there are. -/
structure CommandSpec.Accepted (e : Entry CommandSpec) : Prop where
  args : Signature.parse e.spec.signature = .ok e.args
  mode : e.spec.mode = [] ∨ e.spec.mode = bytes "text" ∨ e.spec.mode = bytes "math"

/-- What is known of an environment that was accepted: its arguments are those of its signature, and what is
    kept as it is can be neither a formula nor aligned. -/
structure EnvironmentSpec.Accepted (e : Entry EnvironmentSpec) : Prop where
  args : Signature.parse e.spec.signature = .ok e.args
  verbatim : e.spec.verbatim = true → e.spec.math = false ∧ e.spec.align = false

namespace Registry

/-- The entry that a command is kept with, or why it is refused. -/
def commandEntry (name : Bytes) (spec : CommandSpec) : Except Error (Entry CommandSpec) :=
  match Signature.parse spec.signature with
  | .error e => .error (.commandSignature name e)
  | .ok args =>
    if !spec.mode.isEmpty && (Mode.ofName? spec.mode).isNone then .error (.commandMode name spec.mode)
    else .ok ⟨spec, args⟩

/-- The entry that an environment is kept with, or why it is refused. -/
def environmentEntry (name : Bytes) (spec : EnvironmentSpec) : Except Error (Entry EnvironmentSpec) :=
  match Signature.parse spec.signature with
  | .error e => .error (.environmentSignature name e)
  | .ok args =>
    if spec.verbatim && (spec.math || spec.align) then .error (.environmentVerbatim name)
    else .ok ⟨spec, args⟩

/-- A command is accepted if it has a signature and a mode that mean something. -/
theorem commandEntry_eq_ok_iff {name : Bytes} {spec : CommandSpec} {e : Entry CommandSpec} :
    commandEntry name spec = .ok e ↔ e.spec = spec ∧ CommandSpec.Accepted e := by
  obtain ⟨spec', args⟩ := e
  have hknown : ∀ s : CommandSpec, (!s.mode.isEmpty && (Mode.ofName? s.mode).isNone) = false ↔
      (s.mode = [] ∨ s.mode = bytes "text" ∨ s.mode = bytes "math") := by
    intro s
    rw [← Mode.isSome_ofName?_iff, ← List.isEmpty_iff, ← Option.not_isSome]
    cases s.mode.isEmpty <;> simp
  unfold commandEntry
  constructor
  · intro h
    split at h
    · cases h
    · next hargs =>
      split at h
      · cases h
      · next hmode =>
        cases h
        exact ⟨rfl, hargs, (hknown _).1 (Bool.not_eq_true _ ▸ hmode)⟩
  · rintro ⟨rfl, hargs, hmode⟩
    simp only [hargs, (hknown _).2 hmode]
    rfl

/-- An environment is accepted if it has a signature that means something, and is not verbatim and more. -/
theorem environmentEntry_eq_ok_iff {name : Bytes} {spec : EnvironmentSpec} {e : Entry EnvironmentSpec} :
    environmentEntry name spec = .ok e ↔ e.spec = spec ∧ EnvironmentSpec.Accepted e := by
  obtain ⟨spec', args⟩ := e
  have hclash : ∀ s : EnvironmentSpec, (s.verbatim && (s.math || s.align)) = false ↔
      (s.verbatim = true → s.math = false ∧ s.align = false) := by
    intro s
    cases s.verbatim <;> simp
  unfold environmentEntry
  constructor
  · intro h
    split at h
    · cases h
    · next hargs =>
      split at h
      · cases h
      · next hmixed =>
        cases h
        exact ⟨rfl, hargs, (hclash _).1 (Bool.not_eq_true _ ▸ hmixed)⟩
  · rintro ⟨rfl, hargs, hverbatim⟩
    simp only [hargs, (hclash _).2 hverbatim]
    rfl

/-- The registry that is left when an entry is kept by `keep` or refused. A refusal leaves the registry as it is. -/
def keeping {σ : Type} (r : Registry) (keep : Entry σ → Registry) : Except Error (Entry σ) → Registry × Option Error
  | .error error => (r, some error)
  | .ok e => (keep e, none)

/-- Asking for a command comes to keeping its entry. -/
theorem define_eq (r : Registry) (name : Bytes) (spec : CommandSpec) : r.define name spec =
    r.keeping (fun e => { r with commands := (name, e) :: r.commands }) (commandEntry name spec) := by
  unfold define commandEntry
  cases Signature.parse spec.signature with
  | error e => rfl
  | ok args => dsimp only; split <;> rfl

theorem defineEnvironment_eq (r : Registry) (name : Bytes) (spec : EnvironmentSpec) : r.defineEnvironment name spec =
    r.keeping (fun e => { r with environments := (name, e) :: r.environments }) (environmentEntry name spec) := by
  unfold defineEnvironment environmentEntry
  cases Signature.parse spec.signature with
  | error e => rfl
  | ok args => dsimp only; split <;> rfl

section Keeping

variable {σ : Type} {r : Registry} {keep : Entry σ → Registry} {entry : Except Error (Entry σ)}

theorem fst_keeping_of_refused {error : Error} (h : (r.keeping keep entry).2 = some error) :
    (r.keeping keep entry).1 = r := by
  cases entry with
  | error _ => rfl
  | ok _ => cases h

theorem snd_keeping_eq_none_iff : (r.keeping keep entry).2 = none ↔ ∃ e, entry = .ok e := by
  cases entry <;> simp [keeping]

theorem accepted_keeping : accepted (r.keeping keep entry) = entry.map keep := by
  cases entry <;> rfl

end Keeping

/-! ## changes -/

/-- A change that is asked of a registry. -/
inductive Change where
  | define (name : Bytes) (spec : CommandSpec)
  | defineEnvironment (name : Bytes) (spec : EnvironmentSpec)
  | merge (other : Registry)

/-- Asks for a change: the registry as it is left, and the reason if the change was refused. -/
def attempt (r : Registry) : Change → Registry × Option Error
  | .define name spec => r.define name spec
  | .defineEnvironment name spec => r.defineEnvironment name spec
  | .merge other => (r.merge other, none)

/-- The registry that is left when a change was asked for, refused or not. -/
def after (r : Registry) (change : Change) : Registry :=
  (r.attempt change).1

/-- The registries that can be built. -/
inductive Reachable : Registry → Prop
  | empty : Reachable .empty
  | builtin : Reachable .builtin
  | after {r : Registry} {change : Change} (start : Reachable r)
      (merged : ∀ other, change = .merge other → Reachable other) : Reachable (r.after change)

/-- Two registries know the same. -/
def SameLookups (r s : Registry) : Prop :=
  (∀ name, r.command? name = s.command? name) ∧ ∀ name, r.environment? name = s.environment? name

/-- Everything that a registry knows was accepted. -/
structure WellFormed (r : Registry) : Prop where
  commands : r.commands.Holds CommandSpec.Accepted
  environments : r.environments.Holds EnvironmentSpec.Accepted

/-- **A refused change leaves the registry as it was.** -/
theorem after_of_refused {r : Registry} {change : Change} {error : Error}
    (h : (r.attempt change).2 = some error) : r.after change = r := by
  cases change with
  | define name spec =>
    simp only [after, attempt, define_eq] at h ⊢
    exact fst_keeping_of_refused h
  | defineEnvironment name spec =>
    simp only [after, attempt, defineEnvironment_eq] at h ⊢
    exact fst_keeping_of_refused h
  | merge other => cases h

/-- What a command that is not refused makes of a registry. -/
theorem after_define {r : Registry} {name : Bytes} {spec : CommandSpec}
    (h : (r.attempt (.define name spec)).2 = none) : ∃ e, (e.spec = spec ∧ CommandSpec.Accepted e) ∧
      r.after (.define name spec) = { r with commands := (name, e) :: r.commands } := by
  rw [attempt, define_eq, snd_keeping_eq_none_iff] at h
  obtain ⟨e, he⟩ := h
  exact ⟨e, commandEntry_eq_ok_iff.1 he, by rw [after, attempt, define_eq, he, keeping]⟩

theorem after_defineEnvironment {r : Registry} {name : Bytes} {spec : EnvironmentSpec}
    (h : (r.attempt (.defineEnvironment name spec)).2 = none) : ∃ e, (e.spec = spec ∧ EnvironmentSpec.Accepted e) ∧
      r.after (.defineEnvironment name spec) = { r with environments := (name, e) :: r.environments } := by
  rw [attempt, defineEnvironment_eq, snd_keeping_eq_none_iff] at h
  obtain ⟨e, he⟩ := h
  exact ⟨e, environmentEntry_eq_ok_iff.1 he, by rw [after, attempt, defineEnvironment_eq, he, keeping]⟩

theorem command?_merge (r s : Registry) (name : Bytes) :
    (r.merge s).command? name = (s.command? name).or (r.command? name) :=
  Definitions.find?_append _ _ _

theorem environment?_merge (r s : Registry) (name : Bytes) :
    (r.merge s).environment? name = (s.environment? name).or (r.environment? name) :=
  Definitions.find?_append _ _ _

/-! ## what every registry is like -/

theorem wellFormed_empty : WellFormed .empty :=
  ⟨Definitions.holds_nil, Definitions.holds_nil⟩

/-- **One change keeps a registry well-formed**, if only well-formed ones are merged into it. -/
theorem WellFormed.after {r : Registry} {change : Change} (hr : r.WellFormed)
    (hmerged : ∀ other, change = .merge other → other.WellFormed) : (r.after change).WellFormed := by
  cases h : (r.attempt change).2 with
  | some error =>
    rw [after_of_refused h]
    exact hr
  | none =>
    cases change with
    | define name spec =>
      obtain ⟨e, ⟨-, he⟩, heq⟩ := after_define h
      rw [heq]
      exact ⟨hr.commands.cons he, hr.environments⟩
    | defineEnvironment name spec =>
      obtain ⟨e, ⟨-, he⟩, heq⟩ := after_defineEnvironment h
      rw [heq]
      exact ⟨hr.commands, hr.environments.cons he⟩
    | merge other =>
      have hother := hmerged other rfl
      exact ⟨hother.commands.append hr.commands, hother.environments.append hr.environments⟩

/-- Definitions one after the other keep what one definition keeps. -/
theorem foldlM_keeps {σ ε ρ : Type} {P : ρ → Prop} {define : ρ → σ → Except ε ρ}
    (hdefine : ∀ {r s x}, P r → define r x = .ok s → P s) (xs : List σ) {r s : ρ} (hr : P r)
    (h : xs.foldlM define r = .ok s) : P s := by
  induction xs generalizing r with
  | nil =>
    cases h
    exact hr
  | cons x xs ih =>
    rw [List.foldlM_cons] at h
    cases hx : define r x with
    | error e =>
      rw [hx] at h
      cases h
    | ok r' =>
      rw [hx] at h
      exact ih (hdefine hr hx) h

theorem fst_eq_of_accepted {result : Registry × Option Error} {s : Registry} (h : accepted result = .ok s) :
    result.1 = s := by
  obtain ⟨r, _ | error⟩ := result
  · exact Except.ok.inj h
  · cases h

theorem WellFormed.defineAll {r s : Registry} {commands : List (Bytes × CommandSpec)}
    {environments : List (Bytes × EnvironmentSpec)} (hr : r.WellFormed)
    (h : r.defineAll commands environments = .ok s) : s.WellFormed := by
  unfold Registry.defineAll at h
  simp only [bind, Except.bind] at h
  split at h
  · cases h
  · next r' hcommands =>
    have hr' : r'.WellFormed := by
      refine foldlM_keeps (fun {r s x} hr hs => ?_) commands hr hcommands
      have hafter : (r.after (.define x.1 x.2)).WellFormed := hr.after (by simp)
      rwa [← fst_eq_of_accepted hs]
    refine foldlM_keeps (fun {r s x} hr hs => ?_) environments hr' h
    have hafter : (r.after (.defineEnvironment x.1 x.2)).WellFormed := hr.after (by simp)
    rwa [← fst_eq_of_accepted hs]

theorem wellFormed_builtin : WellFormed .builtin := by
  unfold builtin
  split
  · next h => exact wellFormed_empty.defineAll h
  · exact wellFormed_empty

/-- **Every registry that can be built is well-formed.** -/
theorem Reachable.wellFormed {r : Registry} (h : Reachable r) : r.WellFormed := by
  induction h with
  | empty => exact wellFormed_empty
  | builtin => exact wellFormed_builtin
  | after start merged ih ihMerged => exact ih.after ihMerged

/-- **Registries stay sound, and changes touch what they name.** In every registry that can be built, the arguments
    kept with an entry are those of its signature, the mode of a command is none, text or math, and a verbatim
    environment is neither a formula nor aligned. A refused change changes no look-up, and one that is accepted
    changes that of its own name only. What is merged in wins, so that merging is associative, and merging a
    registry into itself changes nothing. -/
theorem reachable_is_sound {r : Registry} (h : Reachable r) :
    (∀ name e, r.command? name = some e → Signature.parse e.spec.signature = .ok e.args ∧
      (e.spec.mode = [] ∨ e.spec.mode = bytes "text" ∨ e.spec.mode = bytes "math")) ∧
    (∀ name e, r.environment? name = some e → Signature.parse e.spec.signature = .ok e.args ∧
      ¬(e.spec.verbatim = true ∧ (e.spec.math = true ∨ e.spec.align = true))) ∧
    (∀ change error, (r.attempt change).2 = some error → (r.after change).SameLookups r) ∧
    (∀ name spec, (r.attempt (.define name spec)).2 = none →
      (∃ e, (r.after (.define name spec)).command? name = some e ∧ e.spec = spec) ∧
      (∀ other, other ≠ name → (r.after (.define name spec)).command? other = r.command? other) ∧
      ∀ other, (r.after (.define name spec)).environment? other = r.environment? other) ∧
    (∀ name spec, (r.attempt (.defineEnvironment name spec)).2 = none →
      (∃ e, (r.after (.defineEnvironment name spec)).environment? name = some e ∧ e.spec = spec) ∧
      (∀ other, other ≠ name →
        (r.after (.defineEnvironment name spec)).environment? other = r.environment? other) ∧
      ∀ other, (r.after (.defineEnvironment name spec)).command? other = r.command? other) ∧
    (∀ s name, (r.after (.merge s)).command? name = (s.command? name).or (r.command? name) ∧
      (r.after (.merge s)).environment? name = (s.environment? name).or (r.environment? name)) ∧
    (∀ s t, ((r.merge s).merge t).SameLookups (r.merge (s.merge t))) ∧
    (r.merge r).SameLookups r := by
  refine ⟨?_, ?_, ?_, ?_, ?_, ?_, ?_, ?_⟩
  · intro name e he
    have haccepted := h.wellFormed.commands name e he
    exact ⟨haccepted.args, haccepted.mode⟩
  · intro name e he
    have haccepted := h.wellFormed.environments name e he
    refine ⟨haccepted.args, fun ⟨hverbatim, hmixed⟩ => ?_⟩
    obtain ⟨hmath, halign⟩ := haccepted.verbatim hverbatim
    simp [hmath, halign] at hmixed
  · intro change error herror
    rw [after_of_refused herror]
    exact ⟨fun _ => rfl, fun _ => rfl⟩
  · intro name spec hnone
    obtain ⟨e, ⟨hspec, -⟩, heq⟩ := after_define hnone
    rw [heq]
    refine ⟨⟨e, ?_, hspec⟩, fun other hother => ?_, fun other => rfl⟩
    · rw [command?, Definitions.find?_cons, if_pos rfl]
    · rw [command?, Definitions.find?_cons, if_neg hother]
      rfl
  · intro name spec hnone
    obtain ⟨e, ⟨hspec, -⟩, heq⟩ := after_defineEnvironment hnone
    rw [heq]
    refine ⟨⟨e, ?_, hspec⟩, fun other hother => ?_, fun other => rfl⟩
    · rw [environment?, Definitions.find?_cons, if_pos rfl]
    · rw [environment?, Definitions.find?_cons, if_neg hother]
      rfl
  · intro s name
    exact ⟨command?_merge r s name, environment?_merge r s name⟩
  · intro s t
    refine ⟨fun name => ?_, fun name => ?_⟩
    · simp only [command?_merge, Option.or_assoc]
    · simp only [environment?_merge, Option.or_assoc]
  · refine ⟨fun name => ?_, fun name => ?_⟩
    · simp only [command?_merge, Option.or_self]
    · simp only [environment?_merge, Option.or_self]

/-- A command that was merged in keeps its two arguments when a definition of it with an unknown mode is
    refused. -/
theorem reachable_is_sound_refused :
    ∃ r : Registry, Reachable r ∧
      (r.attempt (.define (bytes "pair") { mode := bytes "both" })).2 =
        some (.commandMode (bytes "pair") (bytes "both")) ∧
      (r.after (.define (bytes "pair") { mode := bytes "both" })).command? (bytes "pair") =
        some ⟨{ signature := bytes "m m" }, [.mandatory, .mandatory]⟩ := by
  have hpair : Reachable (Registry.empty.after (.define (bytes "pair") { signature := bytes "m m" })) :=
    .after .empty (by simp)
  have hr : Reachable (Registry.builtin.after
      (.merge (Registry.empty.after (.define (bytes "pair") { signature := bytes "m m" })))) :=
    .after .builtin (by simpa using hpair)
  refine ⟨_, hr, rfl, ?_⟩
  rw [((reachable_is_sound hr).2.2.1 _ _ rfl).1, ((reachable_is_sound .builtin).2.2.2.2.2.1 _ _).1]
  decide

end Registry

end TexTidy
