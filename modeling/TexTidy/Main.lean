import TexTidy.Cli
import TexTidy.Config.Toml

/-!
# TexTidy.Main

The command line. A run is a function of what the program can see, so the files and variables that it
asks for are looked at first, and what the run did to the files is carried out last.
-/

namespace TexTidy.Main

/-- What was looked at. All else counts as missing or not set. -/
structure Seen where
  paths : List (Bytes × Except OpenError Place) := []
  places : List (Place × Found) := []
  values : List (Bytes × Bytes) := []

/-- The surroundings of a run that sees no more than this. -/
def Seen.world (seen : Seen) : Surroundings where
  place path := (seen.paths.lookup path).getD (.error .missing)
  found place := (seen.places.lookup place).getD (.closed [])
  valueOf name := (seen.values.lookup name).getD []

/-- The name that the system knows a path or a variable by. Text that is no UTF-8 names nothing. -/
def systemName? (s : Bytes) : Option String :=
  String.fromUTF8? s.toByteArray

/-- What an error says about a path that could not be read. The system tells a directory by its code. -/
def foundBy : IO.Error → Except OpenError Found
  | .noFileOrDirectory .. => .error .missing
  | .inappropriateType _ 21 _ => .ok .directory
  | .inappropriateType .. => .error (.other (bytes "not a directory"))
  | .permissionDenied .. => .error (.other (bytes "permission denied"))
  | e => .error (.other (bytes (toString e)))

/-- Looks at what a name leads to. -/
def lookInto (name : String) : IO (Except OpenError Found) := do
  try
    let content ← IO.FS.readBinFile name
    return .ok (.file content.data.toList)
  catch e => return foundBy e

/-- Looks at a path as it is written. -/
def lookAt (path : Bytes) : IO (Except OpenError (Place × Found)) := do
  let some name := systemName? path | return .error .missing
  match ← lookInto name with
  | .error e => return .error e
  | .ok found => return .ok (bytes (toString (← IO.FS.realPath name)), found)

/-- Looks at some paths as well. -/
def Seen.lookAtFiles (seen : Seen) (paths : List Bytes) : IO Seen := do
  let looks ← paths.mapM fun path => return (path, ← lookAt path)
  return { seen with
    paths := seen.paths ++ looks.map fun (path, look) => (path, look.map Prod.fst)
    places := seen.places ++ looks.filterMap fun (_, look) => look.toOption }

/-- Looks at the variables that some texts refer to as well. -/
def Seen.lookAtVariables (seen : Seen) (texts : List Bytes) : IO Seen := do
  let values ← (texts.flatMap Text.variableNames).mapM fun name => do
    let value? ← match systemName? name with
      | some name => IO.getEnv name
      | none => pure none
    return (name, bytes (value?.getD ""))
  return { seen with values := seen.values ++ values }

/-- Looks at all that a run with these options asks for: the configuration, the signature files that it
and the options name, and the documents. -/
def look (o : Cli.Options) : IO Seen := do
  let seen ← ({} : Seen).lookAtVariables [o.config]
  let seen ← if o.config.isEmpty then pure seen else seen.lookAtFiles [seen.world.expand o.config]
  match Cli.configure .standard o seen.world with
  | .error _ => return seen
  | .ok config =>
    let seen ← seen.lookAtVariables config.signatures
    let seen ← seen.lookAtFiles (config.signatures.map (config.signaturePath seen.world))
    if Cli.readsInput o.files then return seen else seen.lookAtFiles o.files

/-- Writes the files that a run changed. -/
def writeChanges (seen : Seen) (after : Surroundings) : IO Unit :=
  seen.paths.forM fun (path, _) => do
    match seen.world.readFile path, after.readFile path, systemName? path with
    | .ok old, .ok new, some name =>
      if new ≠ old then IO.FS.writeBinFile name new.toByteArray
    | _, _, _ => return

end TexTidy.Main

/-- Runs the program. -/
def main (args : List String) : IO UInt32 := do
  let args := args.map TexTidy.bytes
  let mut seen : TexTidy.Main.Seen := {}
  let mut input : TexTidy.Bytes := []
  if let .ok o := TexTidy.Cli.Options.parse args then
    if !o.help then
      seen ← TexTidy.Main.look o
      if TexTidy.Cli.readsInput o.files then
        input := (← (← IO.getStdin).readBinToEnd).data.toList
  let outcome := TexTidy.Cli.run .standard { args, input, world := seen.world }
  TexTidy.Main.writeChanges seen outcome.world
  (← IO.getStdout).write outcome.output.toByteArray
  (← IO.getStderr).write outcome.errors.toByteArray
  return outcome.code.toUInt32
