import TexTidy.Config
import TexTidy.Registry.Yaml
import TexTidy.Toml

/-!
# TexTidy.Config.Toml

Configuration files in TOML:

    width = 100
    indent = 4
    signatures = ["$HOME/signatures.yaml"]

    [macros]
    frac = "m m"
    todo = { signature = "o m", in_par_mode = true }

    [environments]
    tabu = { signature = "m", align = true }

This is the decoder that the command line uses; it knows as much of TOML as `TexTidy.Toml` does.
-/

namespace TexTidy.Config

/-- Refuses the first key that is not known. -/
def checkKeys (known : List Bytes) (t : Toml.Table) : Except EntryError Unit :=
  match t.find? fun e => !known.contains e.1 with
  | some (key, _) => .error (.unknownKey key known)
  | none => .ok ()

/-- A field that holds a text. -/
def textField (t : Toml.Table) (name : Bytes) : Except EntryError Bytes :=
  match t.get? name with
  | none => .ok []
  | some (.string s) => .ok s
  | some v => .error (.fieldKind name (bytes "string") v.kindName)

/-- A field that holds a truth value. -/
def boolField (t : Toml.Table) (name : Bytes) : Except EntryError Bool :=
  match t.get? name with
  | none => .ok false
  | some (.boolean b) => .ok b
  | some v => .error (.fieldKind name (bytes "bool") v.kindName)

/-- The fields of a command. -/
def commandKeys : List Bytes :=
  [bytes "signature", bytes "hanging_indent", bytes "in_par_mode", bytes "mode", bytes "verb",
    bytes "break_before", bytes "break_after"]

/-- The fields of an environment. -/
def environmentKeys : List Bytes :=
  [bytes "signature", bytes "math", bytes "verbatim", bytes "align"]

/-- The specification of a command: a signature or a table. -/
def commandSpec : Toml.Value → Except EntryError CommandSpec
  | .string s => .ok { signature := s }
  | .table t => do
    checkKeys commandKeys t
    return {
      signature := ← textField t (bytes "signature")
      hangingIndent := ← boolField t (bytes "hanging_indent")
      inParagraph := ← boolField t (bytes "in_par_mode")
      mode := ← textField t (bytes "mode")
      verb := ← boolField t (bytes "verb")
      breakBefore := ← boolField t (bytes "break_before")
      breakAfter := ← boolField t (bytes "break_after") }
  | v => .error (.commandKind v.kindName)

/-- The specification of an environment: a signature or a table. -/
def environmentSpec : Toml.Value → Except EntryError EnvironmentSpec
  | .string s => .ok { signature := s }
  | .table t => do
    checkKeys environmentKeys t
    return {
      signature := ← textField t (bytes "signature")
      math := ← boolField t (bytes "math")
      verbatim := ← boolField t (bytes "verbatim")
      align := ← boolField t (bytes "align") }
  | v => .error (.environmentKind v.kindName)

/-- The named entries of a table. What is no table holds none. -/
def entries {σ : Type} (spec : Toml.Value → Except EntryError σ) :
    Option Toml.Value → Except EntryError (List (Bytes × σ))
  | some (.table t) => t.mapM fun (name, v) => (spec v).map fun s => (name, s)
  | _ => .ok []

/-- An ASCII letter as a small letter. -/
def lowerCase (c : UInt8) : UInt8 :=
  if 0x41 ≤ c && c ≤ 0x5A then c + 0x20 else c

/-- A setting by its name. The exact name counts first, then one that differs only in case. -/
def setting? (t : Toml.Table) (name : Bytes) : Option Toml.Value :=
  match t.get? name with
  | some v => some v
  | none => (t.find? fun e => e.1.map lowerCase = name).map (·.2)

/-- A setting that holds a number, zero if it is not there. -/
def numberSetting (t : Toml.Table) (name : Bytes) : Except DecodeError Int :=
  match setting? t name with
  | none => .ok 0
  | some (.integer n) => .ok n
  | some _ => .error .malformed

/-- The text of a value that is one. -/
def stringItem : Toml.Value → Except DecodeError Bytes
  | .string s => .ok s
  | _ => .error .malformed

/-- A setting that holds a list of texts. -/
def textsSetting (t : Toml.Table) (name : Bytes) : Except DecodeError (List Bytes) :=
  match setting? t name with
  | none => .ok []
  | some (.array items) => items.mapM stringItem
  | some _ => .error .malformed

/-- The settings that a table holds. -/
def ofTable (t : Toml.Table) : Except DecodeError Config := do
  let width ← numberSetting t (bytes "width")
  let indent ← numberSetting t (bytes "indent")
  let signatures ← textsSetting t (bytes "signatures")
  let commands ← (entries commandSpec (setting? t (bytes "macros"))).mapError .entry
  let environments ← (entries environmentSpec (setting? t (bytes "environments"))).mapError .entry
  return { width, indent, signatures, commands, environments }

/-- The settings of a TOML text. -/
def ofToml (src : Bytes) : Except DecodeError Config :=
  match Toml.parse? src with
  | none => .error .malformed
  | some t => ofTable t

/-- The decoders of the command line. -/
def Decoders.standard : Decoders where
  config := ofToml
  signatures := Registry.File.ofYaml

end TexTidy.Config
