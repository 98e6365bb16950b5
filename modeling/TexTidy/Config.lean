import TexTidy.Format
import TexTidy.Registry.File
import TexTidy.Surroundings

/-!
# TexTidy.Config

Settings of the formatter, usually from a file. The registry of a configuration has layers: the built-in
definitions, then the signature files in order, then the definitions of the configuration itself. A later
layer hides an earlier one.

How the texts of files are decoded is a parameter (`Decoders`).
-/

namespace TexTidy

/-- Settings of the formatter. -/
structure Config where
  width : Int := defaultWidth
  indent : Int := defaultIndent
  /-- Paths of registry files, relative to the directory of the configuration. -/
  signatures : List Bytes := []
  commands : List (Bytes × CommandSpec) := []
  environments : List (Bytes × EnvironmentSpec) := []
  /-- The directory of the configuration, if it came from a file. -/
  dir : Option Bytes := none

namespace Config

/-- Why a definition in a configuration file is refused. -/
inductive EntryError where
  | commandKind (kind : Bytes)
  | environmentKind (kind : Bytes)
  | unknownKey (key : Bytes) (known : List Bytes)
  | fieldKind (field expected kind : Bytes)
  deriving DecidableEq, Repr

/-- The wording of the error. -/
def EntryError.message : EntryError → Bytes
  | .commandKind kind => bytes "macro must be a signature or a table, got " ++ kind
  | .environmentKind kind => bytes "environment must be a signature or a table, got " ++ kind
  | .unknownKey key known =>
    bytes "unknown key " ++ Text.quoted key ++ bytes ", expected one of " ++
      Bytes.join (bytes ", ") known
  | .fieldKind field expected kind =>
    field ++ bytes ": expected " ++ expected ++ bytes ", got " ++ kind

/-- Why the text of a configuration file can not be decoded. -/
inductive DecodeError where
  | malformed
  | entry (error : EntryError)
  deriving DecidableEq, Repr

/-- The ways to decode the files that a configuration is made of. -/
structure Decoders where
  /-- The settings of a configuration file; what it does not set is empty or zero. -/
  config : Bytes → Except DecodeError Config
  /-- What a signature file says. -/
  signatures : Registry.File.Decoder

/-! ## Loading a configuration -/

/-- Why a configuration can not be loaded. -/
inductive LoadError where
  | notFound (path : Bytes)
  | unreadable (error : ReadError)
  | undecodable (error : DecodeError)
  deriving DecidableEq, Repr

/-- The wording of the error. What is wrong with a malformed file is not told. -/
def LoadError.message : LoadError → Bytes
  | .notFound path => bytes "config file not found: " ++ path
  | .unreadable e => bytes "failed to parse config: " ++ e.message
  | .undecodable .malformed => bytes "failed to parse config"
  | .undecodable (.entry e) => bytes "failed to parse config: " ++ e.message

/-- Loads a configuration file. A width or an indentation that is not positive is not set. -/
def load (decoders : Decoders) (world : Surroundings) (path : Bytes) : Except LoadError Config :=
  let path := world.expand path
  match world.readFile path with
  | .error (.notOpened _ .missing) => .error (.notFound path)
  | .error e => .error (.unreadable e)
  | .ok src =>
    match decoders.config src with
    | .error e => .error (.undecodable e)
    | .ok config =>
      .ok { config with
        width := positiveOr defaultWidth config.width
        indent := positiveOr defaultIndent config.indent
        dir := some (Path.dir path) }

/-! ## The registry of a configuration -/

/-- Why a configuration has no registry. -/
inductive RegistryError where
  | unreadable (error : ReadError)
  | file (path : Bytes) (error : Registry.File.Error)
  | entry (error : Registry.Error)
  deriving DecidableEq, Repr

/-- The wording of the error. -/
def RegistryError.message : RegistryError → Bytes
  | .unreadable e => bytes "failed to load signatures: " ++ e.message
  | .file path e => bytes "failed to load signatures: " ++ path ++ bytes ": " ++ e.message
  | .entry e => e.message

/-- The path of a signature file. -/
def signaturePath (config : Config) (world : Surroundings) (path : Bytes) : Bytes :=
  let path := world.expand path
  match config.dir with
  | some dir => if Path.isAbsolute path then path else Path.join dir path
  | none => path

/-- The registry of a signature file. A directory counts as a malformed file. -/
def loadSignatures (config : Config) (decode : Registry.File.Decoder) (world : Surroundings)
    (path : Bytes) : Except RegistryError Registry :=
  let path := config.signaturePath world path
  match world.readFile path with
  | .error (.isDirectory _) => .error (.file path .malformed)
  | .error e => .error (.unreadable e)
  | .ok src => (Registry.File.load decode src).mapError (.file path)

/-- The registry of a configuration. -/
def registry (config : Config) (decode : Registry.File.Decoder) (world : Surroundings) :
    Except RegistryError Registry := do
  let files ← config.signatures.mapM (config.loadSignatures decode world)
  let base := files.foldl Registry.merge .builtin
  (base.defineAll config.commands config.environments).mapError .entry

end Config

end TexTidy
