import TexTidy.Text.Csv
import TexTidy.Text.Integer
import TexTidy.Text.Quoted

/-!
# TexTidy.Cli.Flag

The flags of the command line. A flag is given by its name after two dashes or by its letter after one;
letters of flags without a value can be written together. Flags and files can be mixed, and all that
comes after two dashes alone is a file.
-/

namespace TexTidy.Cli

/-- A flag. -/
inductive Flag where
  | config
  | signatures
  | width
  | indent
  | write
  | check
  | verbose
  | help
  deriving DecidableEq, Repr

namespace Flag

/-- All flags. -/
def all : List Flag :=
  [.config, .signatures, .width, .indent, .write, .check, .verbose, .help]

/-- The name of a flag. -/
def name : Flag → Bytes
  | .config => bytes "config"
  | .signatures => bytes "signatures"
  | .width => bytes "width"
  | .indent => bytes "indent"
  | .write => bytes "write"
  | .check => bytes "check"
  | .verbose => bytes "verbose"
  | .help => bytes "help"

/-- The letter of a flag, if it has one. -/
def letter? : Flag → Option UInt8
  | .signatures => some 0x73
  | .write => some 0x77
  | .check => some 0x63
  | .verbose => some 0x76
  | .help => some 0x68
  | _ => none

/-- Whether the flag is a switch, which needs no value. -/
def isSwitch : Flag → Bool
  | .write | .check | .verbose | .help => true
  | _ => false

/-- The flag of a name. -/
def ofName? (name : Bytes) : Option Flag :=
  all.find? (·.name == name)

/-- The flag of a letter. -/
def ofLetter? (c : UInt8) : Option Flag :=
  all.find? (·.letter? == some c)

/-- A flag as messages show it. -/
def shown (f : Flag) : Bytes :=
  match f.letter? with
  | some c => bytes "-" ++ [c] ++ bytes ", --" ++ f.name
  | none => bytes "--" ++ f.name

end Flag

/-- What the command line says. -/
structure Options where
  config : Bytes := []
  signatures : List Bytes := []
  width : Option Int := none
  indent : Option Int := none
  write : Option Bool := none
  check : Option Bool := none
  verbose : Bool := false
  help : Bool := false
  files : List Bytes := []

/-- Why a value does not suit its flag. -/
inductive ValueError where
  | integer (error : Text.IntegerError)
  | boolean
  | list (error : Text.Csv.Error)
  deriving DecidableEq, Repr

/-- The wording of the error. -/
def ValueError.message (value : Bytes) : ValueError → Bytes
  | .integer e =>
    bytes "strconv.ParseInt: parsing " ++ Text.quoted value ++ bytes ": " ++ e.message
  | .boolean =>
    bytes "strconv.ParseBool: parsing " ++ Text.quoted value ++ bytes ": invalid syntax"
  | .list e => e.message

/-- Why the command line can not be read. -/
inductive FlagError where
  | badSyntax (arg : Bytes)
  | unknownName (name : Bytes)
  | unknownLetter (letter : UInt8) (cluster : Bytes)
  | valueExpected (arg : Bytes)
  | letterValueExpected (letter : UInt8) (cluster : Bytes)
  | invalidValue (flag : Flag) (value : Bytes) (error : ValueError)
  | exclusive
  deriving DecidableEq, Repr

/-- The wording of the error. -/
def FlagError.message : FlagError → Bytes
  | .badSyntax arg => bytes "bad flag syntax: " ++ arg
  | .unknownName name => bytes "unknown flag: --" ++ name
  | .unknownLetter c cluster =>
    bytes "unknown shorthand flag: " ++ Text.quotedChar (Char.ofNat c.toNat) ++ bytes " in -" ++ cluster
  | .valueExpected arg => bytes "flag needs an argument: " ++ arg
  | .letterValueExpected c cluster =>
    bytes "flag needs an argument: " ++ Text.quotedChar (Char.ofNat c.toNat) ++ bytes " in -" ++ cluster
  | .invalidValue flag value e =>
    bytes "invalid argument " ++ Text.quoted value ++ bytes " for " ++ Text.quoted flag.shown ++
      bytes " flag: " ++ e.message value
  | .exclusive =>
    bytes "if any flags in the group [write check] are set none of the others can be; " ++
      bytes "[check write] were all set"

/-! ## Setting a flag -/

/-- The words for a truth value. -/
def boolValue? (s : Bytes) : Option Bool :=
  if [bytes "1", bytes "t", bytes "T", bytes "true", bytes "TRUE", bytes "True"].contains s then
    some true
  else if [bytes "0", bytes "f", bytes "F", bytes "false", bytes "FALSE", bytes "False"].contains s then
    some false
  else none

/-- The value of a switch. -/
def switchValue (s : Bytes) : Except ValueError Bool :=
  match boolValue? s with
  | some b => .ok b
  | none => .error .boolean

/-- Gives a flag a value. Lists grow, and everything else is replaced. -/
def Options.set (o : Options) (flag : Flag) (value : Bytes) : Except FlagError Options :=
  let result : Except ValueError Options :=
    match flag with
    | .config => .ok { o with config := value }
    | .signatures =>
      ((Text.Csv.fields value).mapError ValueError.list).map fun fs =>
        { o with signatures := o.signatures ++ fs }
    | .width =>
      ((Text.parseInteger value).mapError ValueError.integer).map fun n => { o with width := some n }
    | .indent =>
      ((Text.parseInteger value).mapError ValueError.integer).map fun n => { o with indent := some n }
    | .write => (switchValue value).map fun b => { o with write := some b }
    | .check => (switchValue value).map fun b => { o with check := some b }
    | .verbose => (switchValue value).map fun b => { o with verbose := b }
    | .help => (switchValue value).map fun b => { o with help := b }
  result.mapError (.invalidValue flag value)

/-! ## Reading arguments -/

/-- Sets the flags of a cluster of letters. The last of them may take its value from the next argument;
    the result says whether it did. What starts with `test.` is left alone. -/
def setLetters (next : Option Bytes) (o : Options) : Bytes → Except FlagError (Options × Bool)
  | [] => .ok (o, false)
  | c :: s =>
    match (bytes "test.").isPrefixOf (c :: s), Flag.ofLetter? c with
    | true, _ => .ok (o, false)
    | false, none => .error (.unknownLetter c (c :: s))
    | false, some flag =>
      if s.head? == some Byte.equals && 2 ≤ s.length then
        (o.set flag (s.drop 1)).map fun o => (o, false)
      else if flag.isSwitch then
        match o.set flag (bytes "true") with
        | .error e => .error e
        | .ok o => setLetters next o s
      else if !s.isEmpty then (o.set flag s).map fun o => (o, false)
      else match next with
        | some value => (o.set flag value).map fun o => (o, true)
        | none => .error (.letterValueExpected c (c :: s))

/-- Sets the flag of an argument with two dashes, which is given without them. -/
def setName (next : Option Bytes) (o : Options) (arg : Bytes) : Except FlagError (Options × Bool) :=
  let name := arg.takeWhile (· != Byte.equals)
  match Flag.ofName? name with
  | none => .error (.unknownName name)
  | some flag =>
    if name.length < arg.length then (o.set flag (arg.drop (name.length + 1))).map fun o => (o, false)
    else if flag.isSwitch then (o.set flag (bytes "true")).map fun o => (o, false)
    else match next with
      | some value => (o.set flag value).map fun o => (o, true)
      | none => .error (.valueExpected (bytes "--" ++ arg))

/-- Sets the flags of one argument that starts with a dash. -/
def setArgument (next : Option Bytes) (o : Options) (arg : Bytes) :
    Except FlagError (Options × Bool) :=
  match arg.drop 1 with
  | Byte.minus :: name =>
    if name.head? == some Byte.minus || name.head? == some Byte.equals then
      .error (.badSyntax arg)
    else setName next o name
  | letters => setLetters next o letters

/-- Reads arguments; `skip` if the next one is the value of a flag before it. -/
def readArguments (o : Options) (skip : Bool) : List Bytes → Except FlagError Options
  | [] => .ok o
  | arg :: args =>
    if skip then readArguments o false args
    else if arg.head? != some Byte.minus || arg.length == 1 then
      readArguments { o with files := o.files ++ [arg] } false args
    else if arg == bytes "--" then .ok { o with files := o.files ++ args }
    else
      match setArgument args.head? o arg with
      | .error e => .error e
      | .ok (o, used) => readArguments o used args

/-- Reads the command line. -/
def Options.parse (args : List Bytes) : Except FlagError Options :=
  readArguments {} false args

/-- Refuses flags that exclude each other. -/
def Options.validate (o : Options) : Except FlagError Unit :=
  if o.write.isSome && o.check.isSome then .error .exclusive else .ok ()

end TexTidy.Cli
