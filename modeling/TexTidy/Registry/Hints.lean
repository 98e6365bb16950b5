import TexTidy.Node
import TexTidy.Registry

/-!
# TexTidy.Registry.Hints

Layout hints from a registry. Only commands written with a backslash and environments get hints, and
which ones depends on their name alone.
-/

namespace TexTidy

/-- The hints of a command specification. -/
def CommandSpec.hints (spec : CommandSpec) : Hints where
  hangingIndent := spec.hangingIndent
  inParagraph := spec.inParagraph
  breakBefore := spec.breakBefore
  breakAfter := spec.breakAfter
  mode := spec.mode?

/-- The hints of an environment specification. -/
def EnvironmentSpec.hints (spec : EnvironmentSpec) : Hints where
  alignContent := spec.align

/-- The hints that a registry has for a shape. -/
def Registry.hints (r : Registry) : Shape → Hints
  | .command escape name =>
    if escape = [Byte.backslash] then
      match r.command? name with
      | some e => e.spec.hints
      | none => {}
    else {}
  | .environment name | .mathEnvironment name =>
    match r.environment? name with
    | some e => e.spec.hints
    | none => {}
  | _ => {}

namespace Node

mutual

/-- A tree with the hints of a registry. -/
def annotate (r : Registry) : Node → Node
  | .leaf s _ l => .leaf s {} l
  | .branch s _ shape args content =>
    .branch s (r.hints shape) shape (annotateAll r args) (annotateAll r content)

/-- A sequence with the hints of a registry. -/
def annotateAll (r : Registry) : List Node → List Node
  | [] => []
  | n :: ns => annotate r n :: annotateAll r ns

end

end Node

end TexTidy
