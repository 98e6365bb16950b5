import TexTidy.Registry.File
import TexTidy.Yaml

/-!
# TexTidy.Registry.Yaml

Registry files in YAML:

    macros:
      frac: m m
      section: {signature: s o m, hanging_indent: true}
    environments:
      tabular: {signature: m, align: true}

An entry is a signature or a mapping. This is the decoder that the command line uses; it knows as much of YAML as
`TexTidy.Yaml` does.
-/

namespace TexTidy.Registry

open Yaml (Scalar Value)

/-! ## Values of fields -/

/-- A text; any scalar counts as the text it is written with. -/
def text? : Value → Option Bytes
  | .scalar s => some (if s.isNull then [] else s.text)
  | _ => none

/-- The words for `true` that only count without quotes. -/
def trueWords : List Bytes := [bytes "true", bytes "True", bytes "TRUE"]

/-- The words for `false` that only count without quotes. -/
def falseWords : List Bytes := [bytes "false", bytes "False", bytes "FALSE"]

/-- The other words for `true`. -/
def yesWords : List Bytes :=
  [bytes "y", bytes "Y", bytes "yes", bytes "Yes", bytes "YES", bytes "on", bytes "On", bytes "ON"]

/-- The other words for `false`. -/
def noWords : List Bytes :=
  [bytes "n", bytes "N", bytes "no", bytes "No", bytes "NO", bytes "off", bytes "Off", bytes "OFF"]

/-- A truth value; no value counts as `false`. -/
def bool? : Value → Option Bool
  | .scalar s =>
    if s.isNull then some false
    else if (s.plain && trueWords.contains s.text) || yesWords.contains s.text then some true
    else if (s.plain && falseWords.contains s.text) || noWords.contains s.text then some false
    else none
  | _ => none

/-- Whether no key occurs twice. -/
def uniqueKeys : List (Scalar × Value) → Bool
  | [] => true
  | (key, _) :: rest => rest.all (fun e => e.1.text != key.text) && uniqueKeys rest

/-- The value of a field, which is no value if the field is not there. -/
def field (entries : List (Scalar × Value)) (name : String) : Value :=
  ((entries.find? fun e => e.1.text == bytes name).map (·.2)).getD .null

/-! ## Entries -/

/-- The specification of a command. -/
def commandSpec? : Value → Option CommandSpec
  | .scalar s => some { signature := if s.isNull then [] else s.text }
  | .sequence _ => none
  | .mapping entries =>
    if !uniqueKeys entries then none
    else do
      return {
        signature := ← text? (field entries "signature")
        hangingIndent := ← bool? (field entries "hanging_indent")
        inParagraph := ← bool? (field entries "in_par_mode")
        mode := ← text? (field entries "mode")
        verb := ← bool? (field entries "verb")
        breakBefore := ← bool? (field entries "break_before")
        breakAfter := ← bool? (field entries "break_after") }

/-- The specification of an environment. -/
def environmentSpec? : Value → Option EnvironmentSpec
  | .scalar s => some { signature := if s.isNull then [] else s.text }
  | .sequence _ => none
  | .mapping entries =>
    if !uniqueKeys entries then none
    else do
      return {
        signature := ← text? (field entries "signature")
        math := ← bool? (field entries "math")
        verbatim := ← bool? (field entries "verbatim")
        align := ← bool? (field entries "align") }

/-- The named entries of a table. -/
def entries? {σ : Type} (spec? : Value → Option σ) : Value → Option (List (Bytes × σ))
  | .scalar s => if s.isNull then some [] else none
  | .sequence _ => none
  | .mapping entries =>
    if !uniqueKeys entries then none
    else (entries.filter fun e => !e.1.isNull).mapM fun e => (spec? e.2).map fun spec => (e.1.text, spec)

namespace File

/-- What a value says, if it is a registry file. -/
def ofValue? : Value → Option File
  | .scalar s => if s.isNull then some {} else none
  | .sequence _ => none
  | .mapping entries =>
    if !uniqueKeys entries then none
    else do
      return {
        commands := ← entries? commandSpec? (field entries "macros")
        environments := ← entries? environmentSpec? (field entries "environments") }

/-- What a YAML text says. -/
def ofYaml : Decoder := fun src =>
  match (Yaml.parse? src).bind ofValue? with
  | none => .error .malformed
  | some file => if Yaml.isVoid src then .error .endOfInput else .ok file

end File

end TexTidy.Registry
