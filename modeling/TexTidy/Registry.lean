import TexTidy.Mode
import TexTidy.Signature

/-!
# TexTidy.Registry

What is known about commands and environments: which arguments they take and how they are laid out. A
registry is a table for each of the two; a later definition of a name hides an earlier one.
-/

namespace TexTidy

/-- What a user can say about a command. -/
structure CommandSpec where
  signature : Bytes := []
  /-- Continuation lines of the arguments are indented. -/
  hangingIndent : Bool := false
  /-- The arguments flow with the paragraph around the command. -/
  inParagraph : Bool := false
  /-- `text` or `math` sets the mode of the arguments. -/
  mode : Bytes := []
  /-- The argument is verbatim text between delimiters. -/
  verb : Bool := false
  /-- The command starts a new line. -/
  breakBefore : Bool := false
  /-- A space after the command is a line break. -/
  breakAfter : Bool := false
  deriving DecidableEq, Repr

/-- What a user can say about an environment. -/
structure EnvironmentSpec where
  signature : Bytes := []
  math : Bool := false
  verbatim : Bool := false
  align : Bool := false
  deriving DecidableEq, Repr

/-- The mode of the arguments of a command, if the command sets one. -/
def CommandSpec.mode? (spec : CommandSpec) : Option Mode :=
  Mode.ofName? spec.mode

/-- An accepted specification with the arguments of its signature. -/
structure Entry (σ : Type) where
  spec : σ
  args : List ArgKind
  deriving DecidableEq, Repr

/-- Definitions of names, the latest first. -/
abbrev Definitions (σ : Type) := List (Bytes × Entry σ)

/-- The entry of a name. -/
def Definitions.find? {σ : Type} (t : Definitions σ) (name : Bytes) : Option (Entry σ) :=
  List.lookup name t

/-- Known commands and environments. -/
structure Registry where
  commands : Definitions CommandSpec
  environments : Definitions EnvironmentSpec
  deriving DecidableEq, Repr

namespace Registry

/-- Why a definition is refused. -/
inductive Error where
  | commandSignature (name : Bytes) (error : Signature.Error)
  | commandMode (name mode : Bytes)
  | environmentSignature (name : Bytes) (error : Signature.Error)
  | environmentVerbatim (name : Bytes)
  deriving DecidableEq, Repr

/-- The wording of a refusal. -/
def Error.message : Error → Bytes
  | .commandSignature name e => bytes "macro " ++ name ++ bytes ": " ++ e.message
  | .commandMode name mode =>
    bytes "macro " ++ name ++ bytes ": unknown mode " ++ Text.quoted mode
  | .environmentSignature name e => bytes "environment " ++ name ++ bytes ": " ++ e.message
  | .environmentVerbatim name =>
    bytes "environment " ++ name ++ bytes ": verbatim environment can not be math or aligned"

/-- The registry that knows nothing. -/
def empty : Registry := ⟨[], []⟩

/-- The entry of a command. -/
def command? (r : Registry) (name : Bytes) : Option (Entry CommandSpec) :=
  r.commands.find? name

/-- The entry of an environment. -/
def environment? (r : Registry) (name : Bytes) : Option (Entry EnvironmentSpec) :=
  r.environments.find? name

/-- Whether a command takes verbatim text between delimiters. -/
def isVerb (r : Registry) (name : Bytes) : Bool :=
  match r.command? name with
  | some e => e.spec.verb
  | none => false

/-- Adds or replaces a command. The result is the registry as it is left and, if the command was refused,
    the reason. -/
def define (r : Registry) (name : Bytes) (spec : CommandSpec) : Registry × Option Error :=
  match Signature.parse spec.signature with
  | .error e => (r, some (.commandSignature name e))
  | .ok args =>
    if !spec.mode.isEmpty && (Mode.ofName? spec.mode).isNone then
      (r, some (.commandMode name spec.mode))
    else ({ r with commands := (name, ⟨spec, args⟩) :: r.commands }, none)

/-- Adds or replaces an environment, with a result as for a command. -/
def defineEnvironment (r : Registry) (name : Bytes) (spec : EnvironmentSpec) :
    Registry × Option Error :=
  match Signature.parse spec.signature with
  | .error e => (r, some (.environmentSignature name e))
  | .ok args =>
    if spec.verbatim && (spec.math || spec.align) then (r, some (.environmentVerbatim name))
    else ({ r with environments := (name, ⟨spec, args⟩) :: r.environments }, none)

/-- Everything in both registries; where both define a name, `other` wins. -/
def merge (r other : Registry) : Registry :=
  ⟨other.commands ++ r.commands, other.environments ++ r.environments⟩

/-- The registry that a definition leaves, for callers that give up at a refusal. -/
def accepted : Registry × Option Error → Except Error Registry
  | (r, none) => .ok r
  | (_, some e) => .error e

/-- Adds definitions in order, commands before environments; the first refusal is the result. -/
def defineAll (r : Registry) (commands : List (Bytes × CommandSpec))
    (environments : List (Bytes × EnvironmentSpec)) : Except Error Registry := do
  let r ← commands.foldlM (fun r (name, spec) => accepted (r.define name spec)) r
  environments.foldlM (fun r (name, spec) => accepted (r.defineEnvironment name spec)) r

end Registry

end TexTidy
