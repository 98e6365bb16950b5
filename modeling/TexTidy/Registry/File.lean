import TexTidy.Registry

/-!
# TexTidy.Registry.File

Registries in files. The text of a file is decoded into lists of specifications, and these are then defined one
after the other. How it is decoded is a parameter.
-/

namespace TexTidy.Registry

/-- What a registry file says. -/
structure File where
  commands : List (Bytes × CommandSpec) := []
  environments : List (Bytes × EnvironmentSpec) := []

namespace File

/-- Why a text can not be decoded. -/
inductive DecodeError where
  /-- The text ends before a document starts. -/
  | endOfInput
  | malformed
  deriving DecidableEq, Repr

/-- A way to decode the text of a file. -/
abbrev Decoder := Bytes → Except DecodeError File

/-- What a text says. One that ends before a document starts says nothing. -/
def read? (decode : Decoder) (src : Bytes) : Option File :=
  match decode src with
  | .ok file => some file
  | .error .endOfInput => some {}
  | .error .malformed => none

/-- Why a file is no registry. -/
inductive Error where
  | malformed
  | refused (error : Registry.Error)
  deriving DecidableEq, Repr

/-- The wording of the error. What is wrong with a malformed file is not told. -/
def Error.message : Error → Bytes
  | .malformed => bytes "unable to decode registry"
  | .refused e => e.message

/-- The registry of a file. -/
def load (decode : Decoder) (src : Bytes) : Except Error Registry :=
  match read? decode src with
  | none => .error .malformed
  | some file => (empty.defineAll file.commands file.environments).mapError .refused

end File

end TexTidy.Registry
