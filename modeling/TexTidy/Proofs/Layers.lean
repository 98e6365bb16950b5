import Mathlib.Data.List.Forall2
import TexTidy.Config.Toml
import TexTidy.Proofs.Definitions

/-!
# TexTidy.Proofs.Layers

The registry of a configuration is made of layers: the built-in definitions, one layer for each signature file, and the
definitions of the configuration itself. What it knows of a name is what the highest layer says that has the name, and
there is no registry if and only if a file can not be decoded or a definition is refused. How files are decoded is left
open; all that is asked of a decoder is that it gives every name once.

A layer is a pair of tables in which no name stands twice, so the order in which its definitions are entered does not
matter. `Registry.ofLayers` is the registry of given layers, entered in the order in which they are given;
`Config.registry_eq_ok_iff` shows that a configuration has the registry of the layers that its files say.

Everything that is said of commands is said of environments as well. Tables of both kinds are filled by
`Definitions.enter`, and what follows from names being different is proved there.
-/

namespace TexTidy

/-! ## tables of names -/

section

variable {σ : Type} {s t : List (Bytes × σ)} {name : Bytes}

theorem lookup_eq_of_perm (h : (s.map Prod.fst).Nodup) (hperm : s.Perm t) : s.lookup name = t.lookup name := by
  ext v
  rw [lookup_eq_some_iff_mem h, lookup_eq_some_iff_mem ((hperm.map Prod.fst).nodup_iff.1 h), hperm.mem_iff]

theorem lookup_eq_none_of_not_mem (h : name ∉ t.map Prod.fst) : t.lookup name = none := by
  rw [List.lookup_eq_none_iff]
  intro x hx
  rw [bne_iff_ne]
  rintro rfl
  exact h (List.mem_map_of_mem hx)

end

/-! ## lists side by side -/

/-- All steps of a traversal succeed if it does, each with its own result. -/
theorem mapM_eq_ok_iff {α β ε : Type} {f : α → Except ε β} {xs : List α} {ys : List β} :
    xs.mapM f = .ok ys ↔ List.Forall₂ (fun x y => f x = .ok y) xs ys := by
  induction xs generalizing ys with
  | nil => simp [pure, Except.pure, eq_comm]
  | cons x xs ih =>
    rw [List.mapM_cons, List.forall₂_cons_left_iff]
    simp only [← ih]
    cases f x with
    | error error => simp [bind, Except.bind]
    | ok y =>
      cases xs.mapM f with
      | error error => simp [bind, Except.bind]
      | ok zs => simp [bind, Except.bind, pure, Except.pure, eq_comm]

theorem exists_forall₂_iff {α β : Type} {R : α → β → Prop} {xs : List α} :
    (∃ ys, List.Forall₂ R xs ys) ↔ ∀ x ∈ xs, ∃ y, R x y := by
  induction xs with
  | nil => simp
  | cons x xs ih =>
    simp only [List.forall₂_cons_left_iff, List.mem_cons, forall_eq_or_imp, ← ih]
    constructor
    · rintro ⟨_, y, ys, hy, hys, rfl⟩
      exact ⟨⟨y, hy⟩, ys, hys⟩
    · rintro ⟨⟨y, hy⟩, ys, hys⟩
      exact ⟨_, y, ys, hy, hys, rfl⟩

theorem forall₂_and_right_iff {α β : Type} {R : α → β → Prop} {P : β → Prop} {xs : List α} {ys : List β} :
    List.Forall₂ (fun x y => R x y ∧ P y) xs ys ↔ List.Forall₂ R xs ys ∧ ∀ y ∈ ys, P y := by
  induction ys generalizing xs with
  | nil => simp
  | cons y ys ih =>
    simp only [List.forall₂_cons_right_iff, ih, List.forall_mem_cons]
    grind

theorem forall₂_exists_iff {α β γ : Type} {R : α → β → Prop} {S : β → γ → Prop} {xs : List α} {zs : List γ} :
    List.Forall₂ (fun x z => ∃ y, R x y ∧ S y z) xs zs ↔ ∃ ys, List.Forall₂ R xs ys ∧ List.Forall₂ S ys zs := by
  constructor
  · intro h
    induction h with
    | nil => exact ⟨[], .nil, .nil⟩
    | cons hxz _ ih =>
      obtain ⟨y, hR, hS⟩ := hxz
      obtain ⟨ys, hRs, hSs⟩ := ih
      exact ⟨y :: ys, .cons hR hRs, .cons hS hSs⟩
  · rintro ⟨ys, hRs, hSs⟩
    induction hRs generalizing zs with
    | nil =>
      cases hSs
      exact .nil
    | cons hR _ ih =>
      cases hSs with
      | cons hS hSs => exact .cons ⟨_, hR, hS⟩ (ih hSs)

theorem findSome?_eq_of_forall₂ {α β γ : Type} {said : α → Option γ} {said' : β → Option γ} {xs : List α}
    {ys : List β} (h : List.Forall₂ (fun x y => said x = said' y) xs ys) : xs.findSome? said = ys.findSome? said' := by
  induction h with
  | nil => rfl
  | cons hxy _ ih => rw [List.findSome?_cons, List.findSome?_cons, hxy, ih]

theorem mapError_eq_ok_iff {ε ε' α : Type} {x : Except ε α} {f : ε → ε'} {a : α} :
    x.mapError f = .ok a ↔ x = .ok a := by
  cases x <;> simp [Except.mapError]

namespace Definitions

/-- What is said about a name. -/
def spec? {σ : Type} (t : Definitions σ) (name : Bytes) : Option σ :=
  (t.find? name).map Entry.spec

/-- Enters specifications one after the other; the first refusal is the result. -/
def enter {σ ε : Type} (entryOf : Bytes → σ → Except ε (Entry σ)) (t : Definitions σ) (specs : List (Bytes × σ)) :
    Except ε (Definitions σ) :=
  specs.foldlM (fun t x => (entryOf x.1 x.2).map fun e => (x.1, e) :: t) t

variable {σ ε : Type} {entryOf : Bytes → σ → Except ε (Entry σ)} {s t : Definitions σ} {specs : List (Bytes × σ)}

theorem spec?_append (s t : Definitions σ) (name : Bytes) : spec? (s ++ t) name = (s.spec? name).or (t.spec? name) := by
  rw [spec?, find?_append, Option.map_or]
  rfl

/-- The first specification is entered below the others. -/
theorem enter_cons_eq_ok_iff {x : Bytes × σ} :
    enter entryOf t (x :: specs) = .ok s ↔
      ∃ e, entryOf x.1 x.2 = .ok e ∧ enter entryOf ((x.1, e) :: t) specs = .ok s := by
  rw [enter, List.foldlM_cons]
  cases entryOf x.1 x.2 with
  | error error => simp [Except.map, bind, Except.bind]
  | ok e => simp [Except.map, bind, Except.bind, enter]

/-- Specifications can be entered if none of them is refused. -/
theorem exists_enter_iff : (∃ s, enter entryOf t specs = .ok s) ↔ ∀ x ∈ specs, ∃ e, entryOf x.1 x.2 = .ok e := by
  induction specs generalizing t with
  | nil => simp [enter, pure, Except.pure]
  | cons x specs ih =>
    simp only [enter_cons_eq_ok_iff, List.mem_cons, forall_eq_or_imp]
    constructor
    · rintro ⟨s, e, he, hs⟩
      exact ⟨⟨e, he⟩, ih.1 ⟨s, hs⟩⟩
    · rintro ⟨⟨e, he⟩, hrest⟩
      obtain ⟨s, hs⟩ := ih.2 hrest
      exact ⟨s, e, he, hs⟩

/-- What was entered hides what was there, as long as no name is entered twice. -/
theorem spec?_enter (hentry : ∀ {name spec e}, entryOf name spec = .ok e → e.spec = spec)
    (hmap : (specs.map Prod.fst).Nodup) (h : enter entryOf t specs = .ok s) (name : Bytes) :
    s.spec? name = (specs.lookup name).or (t.spec? name) := by
  induction specs generalizing t with
  | nil =>
    cases h
    rfl
  | cons x specs ih =>
    obtain ⟨key, spec⟩ := x
    obtain ⟨e, he, h⟩ := enter_cons_eq_ok_iff.1 h
    simp only [List.map_cons, List.nodup_cons] at hmap
    rw [ih hmap.2 h, spec?, find?_cons]
    by_cases hname : name = key
    · subst hname
      simp [lookup_eq_none_of_not_mem hmap.1, hentry he]
    · simp [List.lookup_cons, hname, beq_eq_false_iff_ne.2 hname, spec?]

/-- Of tables that are laid over each other the last one that has a name counts. -/
theorem spec?_foldl {β : Type} (table : β → Definitions σ) (layers : List β) (base : Definitions σ) (name : Bytes) :
    spec? (layers.foldl (fun t layer => table layer ++ t) base) name =
      (layers.reverse.findSome? fun layer => (table layer).spec? name).or (base.spec? name) := by
  induction layers generalizing base with
  | nil => rfl
  | cons layer layers ih =>
    rw [List.foldl_cons, ih, spec?_append, List.reverse_cons, List.findSome?_append, Option.or_assoc]
    congr 1
    cases h : (table layer).spec? name <;> simp [h]

/-- In layers whose names differ, what counts is what the highest layer says that has the name. -/
theorem spec?_layers {α β : Type} {said : α → List (Bytes × σ)} {table : β → Definitions σ} {files : List α}
    {layers : List β} {top : α} {base : Definitions σ}
    (hentry : ∀ {name spec e}, entryOf name spec = .ok e → e.spec = spec)
    (hmaps : ∀ f ∈ top :: files, ((said f).map Prod.fst).Nodup)
    (hlayers : List.Forall₂ (fun f layer => enter entryOf [] (said f) = .ok (table layer)) files layers)
    (h : enter entryOf (layers.foldl (fun t layer => table layer ++ t) base) (said top) = .ok s) (name : Bytes) :
    s.spec? name = ((top :: files.reverse).findSome? fun f => (said f).lookup name).or (base.spec? name) := by
  rw [List.forall_mem_cons] at hmaps
  have hsame : List.Forall₂ (fun f layer => (said f).lookup name = (table layer).spec? name) files layers := by
    refine ((List.forall₂_and_left _ _).2 ⟨hmaps.2, hlayers⟩).imp fun f layer hf => ?_
    rw [spec?_enter hentry hf.1 hf.2]
    simp [spec?, find?]
  have hfiles := findSome?_eq_of_forall₂ (List.forall₂_reverse_iff.2 hsame)
  rw [spec?_enter hentry hmaps.1 h, spec?_foldl, ← hfiles, ← Option.or_assoc, List.findSome?_cons]
  cases (said top).lookup name <;> rfl

/-- Entries that are known by their specifications are found where the specifications are. -/
theorem find?_eq_of_spec? {P : Entry σ → Prop} (hP : ∀ {e e'}, P e → P e' → e.spec = e'.spec → e = e')
    (hs : s.Holds P) (ht : t.Holds P) {name : Bytes} (h : s.spec? name = t.spec? name) :
    s.find? name = t.find? name := by
  unfold spec? at h
  cases hfs : s.find? name with
  | none =>
    rw [hfs, Option.map_none, eq_comm, Option.map_eq_none_iff] at h
    exact h.symm
  | some e =>
    rw [hfs, Option.map_some, eq_comm, Option.map_eq_some_iff] at h
    obtain ⟨e', hft, hspec⟩ := h
    rw [hft, hP (ht name e' hft) (hs name e hfs) hspec]

end Definitions

namespace Registry

open Definitions (enter)

variable {r s : Registry}

/-! ## one layer -/

theorem accepted_define (r : Registry) (name : Bytes) (spec : CommandSpec) : accepted (r.define name spec) =
    (commandEntry name spec).map fun e => { r with commands := (name, e) :: r.commands } := by
  rw [define_eq, accepted_keeping]

theorem accepted_defineEnvironment (r : Registry) (name : Bytes) (spec : EnvironmentSpec) :
    accepted (r.defineEnvironment name spec) =
      (environmentEntry name spec).map fun e => { r with environments := (name, e) :: r.environments } := by
  rw [defineEnvironment_eq, accepted_keeping]

/-- Definitions that change one table of a registry enter that table. -/
theorem foldlM_eq_enter {σ : Type} {entryOf : Bytes → σ → Except Error (Entry σ)} (get : Registry → Definitions σ)
    (set : Registry → Definitions σ → Registry) {step : Registry → Bytes × σ → Except Error Registry}
    (hself : ∀ r, set r (get r) = r) (hget : ∀ r t, get (set r t) = t) (hset : ∀ r t u, set (set r t) u = set r u)
    (hstep : ∀ r x, step r x = (entryOf x.1 x.2).map fun e => set r ((x.1, e) :: get r))
    (specs : List (Bytes × σ)) (r : Registry) : specs.foldlM step r = (enter entryOf (get r) specs).map (set r) := by
  induction specs generalizing r with
  | nil => exact congrArg Except.ok (hself r).symm
  | cons x specs ih =>
    rw [List.foldlM_cons, hstep, enter, List.foldlM_cons]
    cases entryOf x.1 x.2 with
    | error error => rfl
    | ok e =>
      simp only [Except.map, bind, Except.bind, ih, hget, hset]
      rfl

/-- The definitions of a layer fill the two tables. -/
theorem defineAll_eq_ok_iff {commands : List (Bytes × CommandSpec)} {environments : List (Bytes × EnvironmentSpec)} :
    r.defineAll commands environments = .ok s ↔
      enter commandEntry r.commands commands = .ok s.commands ∧
        enter environmentEntry r.environments environments = .ok s.environments := by
  have hcommands := foldlM_eq_enter Registry.commands (fun r t => { r with commands := t }) (fun _ => rfl)
    (fun _ _ => rfl) (fun _ _ _ => rfl) (fun r x => accepted_define r x.1 x.2) commands r
  have henvironments := foldlM_eq_enter Registry.environments (fun r t => { r with environments := t }) (fun _ => rfl)
    (fun _ _ => rfl) (fun _ _ _ => rfl) (fun r x => accepted_defineEnvironment r x.1 x.2) environments
  rw [defineAll, hcommands]
  cases enter commandEntry r.commands commands with
  | error error => simp [Except.map, bind, Except.bind]
  | ok t =>
    simp only [Except.map, bind, Except.bind, henvironments]
    cases enter environmentEntry r.environments environments with
    | error error => simp
    | ok u =>
      obtain ⟨cs, es⟩ := s
      simp

namespace File

variable {f g : File}

/-- No name stands twice. -/
structure IsMap (f : File) : Prop where
  commands : (f.commands.map Prod.fst).Nodup
  environments : (f.environments.map Prod.fst).Nodup

/-- A definition is refused, whatever registry it is meant for. -/
def IsRefused (f : File) : Prop :=
  (∃ x ∈ f.commands, ∀ r : Registry, ∃ error, (r.define x.1 x.2).2 = some error) ∨
    ∃ x ∈ f.environments, ∀ r : Registry, ∃ error, (r.defineEnvironment x.1 x.2).2 = some error

/-- The same definitions in another order. -/
structure Shuffles (f g : File) : Prop where
  commands : f.commands.Perm g.commands
  environments : f.environments.Perm g.environments

theorem Shuffles.isMap (h : f.Shuffles g) (hf : f.IsMap) : g.IsMap :=
  ⟨(h.commands.map _).nodup_iff.1 hf.commands, (h.environments.map _).nodup_iff.1 hf.environments⟩

theorem Shuffles.isRefused_iff (h : f.Shuffles g) : g.IsRefused ↔ f.IsRefused := by
  simp only [IsRefused, h.commands.mem_iff, h.environments.mem_iff]

/-- Whether a definition is refused does not depend on the registry. -/
theorem not_refused_iff {σ : Type} {entry : Except Registry.Error (Entry σ)}
    (keep : Registry → Entry σ → Registry) :
    (¬∀ r : Registry, ∃ error, (r.keeping (keep r) entry).2 = some error) ↔ ∃ e, entry = .ok e := by
  cases entry with
  | error error => simp [keeping]
  | ok e => simpa [keeping] using ⟨Registry.empty⟩

theorem not_isRefused_iff : ¬f.IsRefused ↔
    (∀ x ∈ f.commands, ∃ e, commandEntry x.1 x.2 = .ok e) ∧
      ∀ x ∈ f.environments, ∃ e, environmentEntry x.1 x.2 = .ok e := by
  simp only [IsRefused, not_or, not_exists, not_and, define_eq, defineEnvironment_eq]
  exact and_congr (forall₂_congr fun _ _ => not_refused_iff _) (forall₂_congr fun _ _ => not_refused_iff _)

/-- A layer can be entered if and only if none of its definitions is refused. -/
theorem exists_defineAll_iff : (∃ s, r.defineAll f.commands f.environments = .ok s) ↔ ¬f.IsRefused := by
  rw [not_isRefused_iff, ← Definitions.exists_enter_iff (t := r.commands),
    ← Definitions.exists_enter_iff (t := r.environments)]
  constructor
  · rintro ⟨s, hs⟩
    obtain ⟨hcommands, henvironments⟩ := defineAll_eq_ok_iff.1 hs
    exact ⟨⟨_, hcommands⟩, _, henvironments⟩
  · rintro ⟨⟨cs, hcs⟩, es, hes⟩
    exact ⟨⟨cs, es⟩, defineAll_eq_ok_iff.2 ⟨hcs, hes⟩⟩

end File

/-! ## layers over each other -/

/-- The registry of layers: the built-in definitions, then the files, each of which is a registry of its own first,
    and at the top the definitions that are entered one by one. -/
def ofLayers (files : List File) (top : File) : Except Error Registry := do
  let layers ← files.mapM fun f => empty.defineAll f.commands f.environments
  (layers.foldl merge builtin).defineAll top.commands top.environments

variable {files : List File} {top : File}

theorem ofLayers_eq_ok_iff : ofLayers files top = .ok r ↔
    ∃ layers, List.Forall₂ (fun f layer => empty.defineAll f.commands f.environments = .ok layer) files layers ∧
      (layers.foldl merge builtin).defineAll top.commands top.environments = .ok r := by
  simp only [← mapM_eq_ok_iff, ofLayers]
  cases files.mapM fun f => empty.defineAll f.commands f.environments with
  | error error => simp [bind, Except.bind]
  | ok layers => simp [bind, Except.bind]

/-- Layers make a registry if and only if no definition in them is refused. -/
theorem exists_ofLayers_iff :
    (∃ r, ofLayers files top = .ok r) ↔ (∀ f ∈ files, ¬f.IsRefused) ∧ ¬top.IsRefused := by
  simp only [ofLayers_eq_ok_iff]
  rw [exists_comm]
  simp only [exists_and_left, File.exists_defineAll_iff, exists_and_right, exists_forall₂_iff]

theorem foldl_merge (layers : List Registry) (base : Registry) :
    layers.foldl merge base = ⟨layers.foldl (fun t layer => layer.commands ++ t) base.commands,
      layers.foldl (fun t layer => layer.environments ++ t) base.environments⟩ := by
  induction layers generalizing base with
  | nil => rfl
  | cons layer layers ih => exact ih _

/-- **The highest layer that has a name says what it means.** -/
theorem spec?_ofLayers (hmaps : ∀ f ∈ top :: files, f.IsMap) (h : ofLayers files top = .ok r) (name : Bytes) :
    r.commands.spec? name =
        ((top :: files.reverse).findSome? (·.commands.lookup name)).or (builtin.commands.spec? name) ∧
      r.environments.spec? name =
        ((top :: files.reverse).findSome? (·.environments.lookup name)).or (builtin.environments.spec? name) := by
  obtain ⟨layers, hlayers, hr⟩ := ofLayers_eq_ok_iff.1 h
  rw [foldl_merge, defineAll_eq_ok_iff] at hr
  constructor
  · exact Definitions.spec?_layers (fun h => (commandEntry_eq_ok_iff.1 h).1) (fun f hf => (hmaps f hf).commands)
      (hlayers.imp fun f layer hlayer => (defineAll_eq_ok_iff.1 hlayer).1) hr.1 name
  · exact Definitions.spec?_layers (fun h => (environmentEntry_eq_ok_iff.1 h).1)
      (fun f hf => (hmaps f hf).environments)
      (hlayers.imp fun f layer hlayer => (defineAll_eq_ok_iff.1 hlayer).2) hr.2 name

theorem wellFormed_ofLayers (h : ofLayers files top = .ok r) : r.WellFormed := by
  obtain ⟨layers, hlayers, hr⟩ := ofLayers_eq_ok_iff.1 h
  refine WellFormed.defineAll ?_ hr
  clear hr h
  -- every file that is laid over what is there is well-formed by itself
  suffices hbase : ∀ base : Registry, base.WellFormed → (layers.foldl merge base).WellFormed from
    hbase _ wellFormed_builtin
  induction hlayers with
  | nil => exact fun _ hbase => hbase
  | cons hlayer _ ih =>
    intro base hbase
    have hwell := wellFormed_empty.defineAll hlayer
    exact ih _ ⟨hwell.commands.append hbase.commands, hwell.environments.append hbase.environments⟩

/-- Well-formed registries that are told the same know the same. -/
theorem WellFormed.sameLookups (hr : r.WellFormed) (hs : s.WellFormed)
    (hcommands : ∀ name, r.commands.spec? name = s.commands.spec? name)
    (henvironments : ∀ name, r.environments.spec? name = s.environments.spec? name) : r.SameLookups s := by
  have hargs : ∀ {σ : Type} {signature : σ → Bytes} {e e' : Entry σ},
      Signature.parse (signature e.spec) = .ok e.args → Signature.parse (signature e'.spec) = .ok e'.args →
        e.spec = e'.spec → e = e' := by
    rintro σ signature ⟨spec, args⟩ ⟨_, args'⟩ h h' rfl
    cases h.symm.trans h'
    rfl
  exact ⟨fun name => Definitions.find?_eq_of_spec? (fun h h' => hargs h.args h'.args) hr.commands hs.commands
      (hcommands name),
    fun name => Definitions.find?_eq_of_spec? (fun h h' => hargs h.args h'.args) hr.environments hs.environments
      (henvironments name)⟩

/-- **The order inside the layers does not matter**: entered in another order, they make a registry that knows the
    same, or none if they made none. -/
theorem ofLayers_of_shuffles {files' : List File} {top' : File} (hmaps : ∀ f ∈ top :: files, f.IsMap)
    (hfiles : List.Forall₂ File.Shuffles files files') (htop : top.Shuffles top') :
    ((∃ r, ofLayers files' top' = .ok r) ↔ ∃ r, ofLayers files top = .ok r) ∧
      ∀ r s, ofLayers files top = .ok r → ofLayers files' top' = .ok s → s.SameLookups r := by
  constructor
  · simp only [exists_ofLayers_iff, htop.isRefused_iff]
    refine and_congr_left fun _ => ?_
    clear hmaps
    induction hfiles with
    | nil => simp
    | cons hf _ ih => simp only [List.forall_mem_cons, hf.isRefused_iff, ih]
  · intro r s hr hs
    have hall : List.Forall₂ (fun f g => f.IsMap ∧ f.Shuffles g) (top :: files) (top' :: files') :=
      (List.forall₂_and_left _ _).2 ⟨hmaps, .cons htop hfiles⟩
    have hmaps' : ∀ f ∈ top' :: files', f.IsMap :=
      (forall₂_and_right_iff.1 (hall.imp fun f g h => ⟨h, h.2.isMap h.1⟩)).2
    have hreverse : List.Forall₂ (fun f g => f.IsMap ∧ f.Shuffles g) (top :: files.reverse)
        (top' :: files'.reverse) := by
      rw [List.forall₂_and_left]
      exact ⟨by simpa using hmaps, .cons htop (List.forall₂_reverse_iff.2 hfiles)⟩
    refine (wellFormed_ofLayers hs).sameLookups (wellFormed_ofLayers hr) (fun name => ?_) fun name => ?_
    · rw [(spec?_ofLayers hmaps' hs name).1, (spec?_ofLayers hmaps hr name).1]
      rw [findSome?_eq_of_forall₂ (hreverse.imp fun f g h => lookup_eq_of_perm h.1.commands h.2.commands)]
    · rw [(spec?_ofLayers hmaps' hs name).2, (spec?_ofLayers hmaps hr name).2]
      rw [findSome?_eq_of_forall₂
        (hreverse.imp fun f g h => lookup_eq_of_perm h.1.environments h.2.environments)]

/-! ## what files say -/

theorem File.isMap_empty : IsMap {} :=
  ⟨List.nodup_nil, List.nodup_nil⟩

/-- What a decoder gives names everything once. -/
def File.Decoder.GivesMaps (decode : File.Decoder) : Prop :=
  ∀ src file, decode src = .ok file → file.IsMap

theorem File.isMap_of_read? {decode : File.Decoder} (hdecode : decode.GivesMaps) {src : Bytes} {file : File}
    (h : read? decode src = some file) : file.IsMap := by
  unfold read? at h
  split at h
  · next hfile =>
    cases h
    exact hdecode src file hfile
  · cases h
    exact isMap_empty
  · cases h

/-! ### the decoder of the command line -/

theorem nodup_of_uniqueKeys {entries : List (Yaml.Scalar × Yaml.Value)} (h : uniqueKeys entries = true) :
    (entries.map (·.1.text)).Nodup := by
  induction entries with
  | nil => exact List.nodup_nil
  | cons e entries ih =>
    obtain ⟨key, value⟩ := e
    simp only [uniqueKeys, Bool.and_eq_true, List.all_eq_true, bne_iff_ne] at h
    rw [List.map_cons, List.nodup_cons]
    refine ⟨?_, ih h.2⟩
    rw [List.mem_map]
    rintro ⟨e, he, hkey⟩
    exact h.1 e he hkey

/-- A table of a file has every name once. -/
theorem nodup_of_entries? {σ : Type} {spec? : Yaml.Value → Option σ} {v : Yaml.Value} {t : List (Bytes × σ)}
    (h : entries? spec? v = some t) : (t.map Prod.fst).Nodup := by
  have hkeys : ∀ {entries : List (Yaml.Scalar × Yaml.Value)} {t : List (Bytes × σ)},
      (entries.mapM fun e => (spec? e.2).map fun spec => (e.1.text, spec)) = some t →
        t.map Prod.fst = entries.map (·.1.text) := by
    intro entries
    induction entries with
    | nil =>
      intro t ht
      cases ht
      rfl
    | cons e entries ih =>
      intro t ht
      simp only [List.mapM_cons, Option.bind_eq_bind, Option.bind_eq_some_iff, Option.map_eq_some_iff] at ht
      obtain ⟨_, ⟨spec, -, rfl⟩, rest, hrest, ht⟩ := ht
      cases ht
      rw [List.map_cons, List.map_cons, ih hrest]
  cases v with
  | scalar scalar =>
    rw [entries?] at h
    split at h <;> cases h
    exact List.nodup_nil
  | sequence items => cases h
  | mapping entries =>
    rw [entries?] at h
    split at h
    · cases h
    · next hunique =>
      rw [hkeys h]
      have hall := nodup_of_uniqueKeys (by simpa using hunique)
      exact hall.sublist (List.filter_sublist.map _)

theorem File.isMap_of_ofValue? {v : Yaml.Value} {file : File} (h : ofValue? v = some file) : file.IsMap := by
  cases v with
  | scalar scalar =>
    rw [ofValue?] at h
    split at h <;> cases h
    exact isMap_empty
  | sequence items => cases h
  | mapping entries =>
    rw [ofValue?] at h
    split at h
    · cases h
    · simp only [Option.bind_eq_bind, Option.bind_eq_some_iff] at h
      obtain ⟨commands, hcommands, environments, henvironments, hfile⟩ := h
      cases hfile
      exact ⟨nodup_of_entries? hcommands, nodup_of_entries? henvironments⟩

theorem File.givesMaps_ofYaml : File.Decoder.GivesMaps ofYaml := by
  intro src file h
  unfold ofYaml at h
  split at h
  · cases h
  · next value hvalue =>
    split at h
    · cases h
    · cases h
      obtain ⟨v, -, hv⟩ := Option.bind_eq_some_iff.1 hvalue
      exact isMap_of_ofValue? hv

end Registry

namespace Config

open Registry

variable {config : Config} {decode : File.Decoder} {world : Surroundings} {path : Bytes} {r : Registry}

/-- The definitions of the configuration itself. -/
def inline (config : Config) : File :=
  ⟨config.commands, config.environments⟩

/-- The signature file at a path can be read and says this. -/
def Decodes (config : Config) (decode : File.Decoder) (world : Surroundings) (path : Bytes) (file : File) : Prop :=
  ∃ src, world.readFile (config.signaturePath world path) = .ok src ∧ File.read? decode src = some file

theorem Decodes.isMap (hdecode : decode.GivesMaps) {file : File} (h : config.Decodes decode world path file) :
    file.IsMap := by
  obtain ⟨src, -, hsrc⟩ := h
  exact File.isMap_of_read? hdecode hsrc

/-- A file says one thing only. -/
theorem Decodes.unique {f g : File} (hf : config.Decodes decode world path f)
    (hg : config.Decodes decode world path g) : f = g := by
  obtain ⟨src, hsrc, hf⟩ := hf
  obtain ⟨src', hsrc', hg⟩ := hg
  cases hsrc.symm.trans hsrc'
  exact Option.some.inj (hf.symm.trans hg)

theorem loadSignatures_eq_ok_iff : config.loadSignatures decode world path = .ok r ↔
    ∃ file, config.Decodes decode world path file ∧ empty.defineAll file.commands file.environments = .ok r := by
  unfold loadSignatures Decodes
  dsimp only
  split
  · next h => simp [h]
  · next h => simp [h]
  · next src h =>
    rw [mapError_eq_ok_iff, File.load]
    split
    · next hsrc => simp [h, hsrc]
    · next file hsrc => simp [h, hsrc, mapError_eq_ok_iff]

/-- A configuration has the registry of the layers that its signature files and it itself say. -/
theorem registry_eq_ok_iff : config.registry decode world = .ok r ↔
    ∃ files, List.Forall₂ (config.Decodes decode world) config.signatures files ∧
      ofLayers files config.inline = .ok r := by
  have hfiles : ∀ layers, config.signatures.mapM (config.loadSignatures decode world) = .ok layers ↔
      ∃ files, List.Forall₂ (config.Decodes decode world) config.signatures files ∧
        List.Forall₂ (fun f layer => empty.defineAll f.commands f.environments = .ok layer) files layers := by
    intro layers
    simp only [mapM_eq_ok_iff, loadSignatures_eq_ok_iff, forall₂_exists_iff]
  simp only [ofLayers_eq_ok_iff]
  unfold registry
  constructor
  · intro h
    cases hlayers : config.signatures.mapM (config.loadSignatures decode world) with
    | error error =>
      rw [hlayers] at h
      cases h
    | ok layers =>
      rw [hlayers] at h
      obtain ⟨files, hdecodes, hentered⟩ := (hfiles layers).1 hlayers
      exact ⟨files, hdecodes, layers, hentered, mapError_eq_ok_iff.1 h⟩
  · rintro ⟨files, hdecodes, layers, hentered, hr⟩
    rw [(hfiles layers).2 ⟨files, hdecodes, hentered⟩]
    exact mapError_eq_ok_iff.2 hr

theorem registry_eq_ok_iff_of_decodes {files : List File}
    (h : List.Forall₂ (config.Decodes decode world) config.signatures files) :
    config.registry decode world = .ok r ↔ ofLayers files config.inline = .ok r := by
  rw [registry_eq_ok_iff]
  constructor
  · rintro ⟨others, hothers, hr⟩
    have hunique : Relator.RightUnique (config.Decodes decode world) := fun _ _ _ hf hg => hf.unique hg
    rwa [← hunique.forall₂ hothers h]
  · exact fun hr => ⟨files, h, hr⟩

/-- A configuration has a registry if and only if all its files can be read and nothing is refused. -/
theorem exists_registry_iff : (∃ r, config.registry decode world = .ok r) ↔
    (∀ path ∈ config.signatures, ∃ file, config.Decodes decode world path file ∧ ¬file.IsRefused) ∧
      ¬config.inline.IsRefused := by
  simp only [registry_eq_ok_iff]
  rw [exists_comm]
  simp only [exists_and_left, exists_ofLayers_iff, ← and_assoc, exists_and_right]
  simp only [← forall₂_and_right_iff, exists_forall₂_iff]

theorem registry_fails_iff : (∃ error, config.registry decode world = .error error) ↔
    (∃ path ∈ config.signatures, ∀ file, ¬config.Decodes decode world path file) ∨
    (∃ path ∈ config.signatures, ∃ file, config.Decodes decode world path file ∧ file.IsRefused) ∨
    config.inline.IsRefused := by
  have hnot : (∃ error, config.registry decode world = .error error) ↔ ¬∃ r, config.registry decode world = .ok r := by
    cases config.registry decode world <;> simp
  rw [hnot, exists_registry_iff, Classical.not_and_iff_not_or_not, Classical.not_not, ← or_assoc]
  refine or_congr_left ?_
  constructor
  · intro h
    simp only [not_forall] at h
    obtain ⟨path, hpath, hnone⟩ := h
    by_cases hfile : ∃ file, config.Decodes decode world path file
    · obtain ⟨file, hfile⟩ := hfile
      exact .inr ⟨path, hpath, file, hfile, Classical.not_not.1 fun hnot => hnone ⟨file, hfile, hnot⟩⟩
    · exact .inl ⟨path, hpath, not_exists.1 hfile⟩
  · rintro (⟨path, hpath, hnone⟩ | ⟨path, hpath, file, hfile, hrefused⟩) hall
    · obtain ⟨file, hfile, -⟩ := hall path hpath
      exact hnone file hfile
    · obtain ⟨other, hother, hnot⟩ := hall path hpath
      exact hnot (hfile.unique hother ▸ hrefused)

/-- **The registry of a configuration is layered.** There is none if and only if a signature file can not be read or
    says nothing that is a registry, or a definition in a file or in the configuration is refused. Otherwise a name
    means what the configuration says, else what the last file says that has it, else what is built in. Whether there
    is a registry, and what it knows, is the same in whatever order the definitions of a file and of the
    configuration are entered. -/
theorem registry_is_layered (config : Config) (decode : File.Decoder) (world : Surroundings)
    (hdecode : decode.GivesMaps) (hmap : config.inline.IsMap) :
    ((∃ error, config.registry decode world = .error error) ↔
      (∃ path ∈ config.signatures, ∀ file, ¬config.Decodes decode world path file) ∨
      (∃ path ∈ config.signatures, ∃ file, config.Decodes decode world path file ∧ file.IsRefused) ∨
      config.inline.IsRefused) ∧
    (∀ r, config.registry decode world = .ok r → r.WellFormed ∧
      ∃ files, List.Forall₂ (config.Decodes decode world) config.signatures files ∧ ∀ name,
        (r.command? name).map Entry.spec =
          ((config.inline :: files.reverse).findSome? (·.commands.lookup name)).or
            ((builtin.command? name).map Entry.spec) ∧
        (r.environment? name).map Entry.spec =
          ((config.inline :: files.reverse).findSome? (·.environments.lookup name)).or
            ((builtin.environment? name).map Entry.spec)) ∧
    ∀ files files' inline', List.Forall₂ (config.Decodes decode world) config.signatures files →
      List.Forall₂ File.Shuffles files files' → config.inline.Shuffles inline' →
        ((∃ r, ofLayers files' inline' = .ok r) ↔ ∃ r, config.registry decode world = .ok r) ∧
        ∀ r s, config.registry decode world = .ok r → ofLayers files' inline' = .ok s → s.SameLookups r := by
  have hmaps : ∀ {files}, List.Forall₂ (config.Decodes decode world) config.signatures files →
      ∀ f ∈ config.inline :: files, f.IsMap := by
    intro files hfiles
    rw [List.forall_mem_cons]
    exact ⟨hmap, (forall₂_and_right_iff.1 (hfiles.imp fun path f h => ⟨h, h.isMap hdecode⟩)).2⟩
  refine ⟨registry_fails_iff, ?_, ?_⟩
  · intro r hr
    obtain ⟨files, hfiles, hlayers⟩ := registry_eq_ok_iff.1 hr
    exact ⟨wellFormed_ofLayers hlayers, files, hfiles, spec?_ofLayers (hmaps hfiles) hlayers⟩
  · intro files files' inline' hfiles hshuffled hinline
    simp only [registry_eq_ok_iff_of_decodes hfiles]
    exact ofLayers_of_shuffles (hmaps hfiles) hshuffled hinline

/-- Two signature files. -/
def twoFiles : Surroundings where
  place path := if path = bytes "a.yaml" ∨ path = bytes "b.yaml" then .ok path else .error .missing
  found place :=
    if place = bytes "a.yaml" then .file (bytes "macros:\n  one: m\n  pair: m\n  frac: m\n")
    else .file (bytes "macros:\n  pair: m m\n  frac: o m\n")
  valueOf _ := []

/-- A configuration that uses both files and has a fraction of its own. -/
def overriding : Config :=
  { signatures := [bytes "a.yaml", bytes "b.yaml"], commands := [(bytes "frac", { signature := bytes "m o" })] }

/-- A command of the first file, one that the second file has too, one that the configuration has as well, and one that
    none of them has. -/
theorem registry_is_layered_override : File.Decoder.GivesMaps File.ofYaml ∧ overriding.inline.IsMap ∧
    ∃ r, overriding.registry File.ofYaml twoFiles = .ok r ∧
      (r.command? (bytes "one")).map Entry.spec = some { signature := bytes "m" } ∧
      (r.command? (bytes "pair")).map Entry.spec = some { signature := bytes "m m" } ∧
      (r.command? (bytes "frac")).map Entry.spec = some { signature := bytes "m o" } ∧
      (r.command? (bytes "sqrt")).map Entry.spec = some { signature := bytes "o m" } := by
  have hmap : overriding.inline.IsMap := ⟨by decide, by decide⟩
  obtain ⟨r, hr⟩ : ∃ r, overriding.registry File.ofYaml twoFiles = .ok r := by
    have hok : (overriding.registry File.ofYaml twoFiles).isOk = true := by decide +kernel
    cases h : overriding.registry File.ofYaml twoFiles with
    | error error =>
      rw [h] at hok
      cases hok
    | ok r => exact ⟨r, rfl⟩
  have hread : ∀ {path file}, overriding.Decodes File.ofYaml twoFiles path file → some file.commands =
      ((twoFiles.readFile (overriding.signaturePath twoFiles path)).toOption.bind
        (File.read? File.ofYaml)).map File.commands := by
    rintro path file ⟨src, hsrc, hfile⟩
    simp [hsrc, hfile, Except.toOption]
  obtain ⟨-, files, hfiles, hname⟩ :=
    (registry_is_layered overriding File.ofYaml twoFiles File.givesMaps_ofYaml hmap).2.1 r hr
  obtain ⟨a, rest, ha, hrest, rfl⟩ := List.forall₂_cons_left_iff.1 hfiles
  obtain ⟨b, none, hb, hnone, rfl⟩ := List.forall₂_cons_left_iff.1 hrest
  cases hnone
  have hacommands : a.commands = [(bytes "one", { signature := bytes "m" }), (bytes "pair", { signature := bytes "m" }),
      (bytes "frac", { signature := bytes "m" })] := Option.some.inj ((hread ha).trans (by decide +kernel))
  have hbcommands : b.commands = [(bytes "pair", { signature := bytes "m m" }),
      (bytes "frac", { signature := bytes "o m" })] := Option.some.inj ((hread hb).trans (by decide +kernel))
  refine ⟨File.givesMaps_ofYaml, hmap, r, hr, ?_⟩
  simp only [(hname _).1, List.reverse_cons, List.reverse_nil, List.nil_append, List.cons_append,
    List.findSome?_cons, List.findSome?_nil, hacommands, hbcommands]
  decide +kernel

end Config

end TexTidy
