import TexTidy.Cli.Flag
import TexTidy.Cli.Log
import TexTidy.Config

/-!
# TexTidy.Cli

The command line program as a function of its arguments, its input and its surroundings. Documents are
read from files or from the standard input; they are written to the standard output, back to their
files, or only checked.
-/

namespace TexTidy.Cli

/-- What a run starts from. -/
structure Start where
  args : List Bytes
  input : Bytes
  world : Surroundings

/-- Why a run fails. -/
inductive Error where
  | flag (error : FlagError)
  | config (error : Config.LoadError)
  | registry (error : Config.RegistryError)
  | read (error : ReadError)
  | document (source : Bytes) (error : SyntaxError)
  /-- A checked document is not formatted; the output says which. -/
  | notFormatted

/-- The message of an error, if it has one. -/
def Error.message? : Error → Option Bytes
  | .flag e => some e.message
  | .config e => some e.message
  | .registry e => some e.message
  | .read e => some e.message
  | .document source e => some (source ++ bytes ": " ++ e.message)
  | .notFormatted => none

/-- What a run has done so far. -/
structure Run where
  world : Surroundings
  output : Bytes := []
  events : List Event := []
  /-- A checked document was not formatted. -/
  unformatted : Bool := false

namespace Run

/-- Adds to the standard output. -/
def print (r : Run) (s : Bytes) : Run :=
  { r with output := r.output ++ s }

/-- Adds an event. -/
def note (r : Run) (e : Event) : Run :=
  { r with events := r.events ++ [e] }

/-- Adds the event of a formatted document, if there is something to report. -/
def noteReport (r : Run) (result : Format.Result) : Run :=
  match result.report with
  | some report => r.note (.documentFormatted report.nodes report.warnings.length)
  | none => r

end Run

/-- What is done with formatted documents. -/
inductive Action where
  | print
  | write
  | check
  deriving DecidableEq, Repr

/-- What the flags ask for. Checking goes before writing. -/
def Options.action (o : Options) : Action :=
  if o.check.getD false then .check
  else if o.write.getD false then .write
  else .print

/-- The name of the standard input in messages. -/
def inputName : Bytes := bytes "<stdin>"

/-- Formats the standard input. -/
def formatInput (options : Format.Options) (action : Action) (input : Bytes) (r : Run) :
    Run × Option Error :=
  match Format.run options input with
  | .error e => (r, some (.document inputName e))
  | .ok result =>
    let r := r.noteReport result
    if action = .check then
      if result.text = input then (r, none)
      else (r.print (inputName ++ [Byte.newline]), some .notFormatted)
    else (r.print result.text, none)

/-- Does what is asked for with a formatted file. -/
def finishFile (action : Action) (path old new : Bytes) (r : Run) : Run :=
  match action with
  | .check =>
    if new = old then r
    else { r.print (path ++ [Byte.newline]) with unformatted := true }
  | .write => if new = old then r else { r with world := r.world.writeFile path new }
  | .print => r.print new

/-- Formats a file. -/
def formatFile (options : Format.Options) (action : Action) (path : Bytes) (r : Run) :
    Run × Option Error :=
  match r.world.readFile path with
  | .error e => (r, some (.read e))
  | .ok src =>
    match Format.run options src with
    | .error e => (r, some (.document path e))
    | .ok result =>
      let r := (r.noteReport result).note (.fileFormatted path (result.text ≠ src))
      (finishFile action path src result.text r, none)

/-- Formats files in order, up to the first that fails. -/
def formatFiles (options : Format.Options) (action : Action) : List Bytes → Run → Run × Option Error
  | [], r => (r, if r.unformatted then some .notFormatted else none)
  | path :: paths, r =>
    match formatFile options action path r with
    | (r, none) => formatFiles options action paths r
    | (r, some e) => (r, some e)

/-- The configuration of a run: that of the file, if one is named, with what the flags say on top. -/
def configure (decoders : Config.Decoders) (o : Options) (world : Surroundings) :
    Except Config.LoadError Config := do
  let base ← if o.config.isEmpty then pure {} else Config.load decoders world o.config
  return { base with
    width := o.width.getD base.width
    indent := o.indent.getD base.indent
    signatures := base.signatures ++ o.signatures }

/-- Whether the document comes from the standard input. -/
def readsInput (files : List Bytes) : Bool :=
  files.isEmpty || files == [[Byte.minus]]

/-- Runs the program once its flags are read. -/
def execute (decoders : Config.Decoders) (o : Options) (input : Bytes) (world : Surroundings) :
    Run × Option Error :=
  let r : Run := { world }
  match configure decoders o world with
  | .error e => (r, some (.config e))
  | .ok config =>
    let r := if o.config.isEmpty then r else r.note (.configLoaded o.config)
    match config.registry decoders.signatures world with
    | .error e => (r, some (.registry e))
    | .ok registry =>
      let options : Format.Options := { width := config.width, indent := config.indent, registry }
      if readsInput o.files then formatInput options o.action input r
      else formatFiles options o.action o.files r

/-! ## What the caller sees -/

/-- The text that explains the program. -/
def helpText : Bytes :=
  Bytes.join [Byte.newline] (List.map bytes [
    "latexfmt parses LaTeX documents and prints them back with consistent",
    "line breaks, indentation and aligned tables.",
    "",
    "Without files the document is read from stdin and written to stdout.",
    "",
    "Examples:",
    "  latexfmt paper.tex",
    "  latexfmt --write chapters/*.tex",
    "  latexfmt --check --width 100 paper.tex",
    "  latexfmt --signatures macros.yaml paper.tex",
    "",
    "Usage:",
    "  latexfmt [file...] [flags]",
    "",
    "Flags:",
    "  -c, --check                list files which are not formatted and exit with an error",
    "      --config string        config file (TOML)",
    "  -h, --help                 help for latexfmt",
    "      --indent int           spaces per indentation level (default 2)",
    "  -s, --signatures strings   additional macro signature files (YAML)",
    "  -v, --verbose              verbose output",
    "      --width int            line width (default 80)",
    "  -w, --write                write result to the source file instead of stdout",
    ""])

/-- What a run leaves behind. -/
structure Outcome where
  code : Nat
  output : Bytes
  errors : Bytes
  world : Surroundings

/-- The line of an error on the standard error. -/
def errorLine (e : Error) : Bytes :=
  match e.message? with
  | some message => bytes "latexfmt: " ++ message ++ [Byte.newline]
  | none => []

/-- The outcome of a run. Events are shown only if that was asked for. -/
def outcome (verbose : Bool) : Run × Option Error → Outcome
  | (r, e) => {
      code := if e.isSome then 1 else 0
      output := r.output
      errors := (if verbose then r.events.flatMap Log.record else []) ++ (e.map errorLine).getD []
      world := r.world }

/-- Runs the program. -/
def run (decoders : Config.Decoders) (start : Start) : Outcome :=
  let stop (e : FlagError) : Outcome := outcome false ({ world := start.world }, some (.flag e))
  match Options.parse start.args with
  | .error e => stop e
  | .ok o =>
    if o.help then outcome false ({ world := start.world, output := helpText }, none)
    else match o.validate with
      | .error e => stop e
      | .ok () => outcome o.verbose (execute decoders o start.input start.world)

end TexTidy.Cli
