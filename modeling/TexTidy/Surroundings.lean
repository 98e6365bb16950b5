import TexTidy.Path
import TexTidy.Text.Expand

/-!
# TexTidy.Surroundings

What a program can see around it: files and variables. Both are given as functions, so that a run of
the program is a function of them.

A path is handed to the system as it is written. The system says which place it leads to, and several
paths can lead to one place.
-/

namespace TexTidy

/-- A place where the system keeps something. -/
abbrev Place := Bytes

/-- What is kept at a place. -/
inductive Found where
  | file (content : Bytes)
  | directory
  /-- Something that can not be opened, and why. -/
  | closed (reason : Bytes)

/-- Why a path can not be opened. -/
inductive OpenError where
  | missing
  /-- Any other reason, in the words of the system. -/
  | other (reason : Bytes)
  deriving DecidableEq, Repr

/-- The wording of the error. -/
def OpenError.message : OpenError → Bytes
  | .missing => bytes "no such file or directory"
  | .other reason => reason

/-- The files and the variables that a program can see. -/
structure Surroundings where
  /-- The place that a path leads to, or why it leads nowhere. -/
  place : Bytes → Except OpenError Place
  /-- What is kept at a place. -/
  found : Place → Found
  /-- The value of a variable, empty if it is not set. -/
  valueOf : Bytes → Bytes

/-- Why a file can not be read. -/
inductive ReadError where
  | notOpened (path : Bytes) (error : OpenError)
  | isDirectory (path : Bytes)
  deriving DecidableEq, Repr

/-- The wording of the error. -/
def ReadError.message : ReadError → Bytes
  | .notOpened path e => bytes "open " ++ path ++ bytes ": " ++ e.message
  | .isDirectory path => bytes "read " ++ path ++ bytes ": is a directory"

namespace Surroundings

/-- What a path leads to. -/
def lookUp (world : Surroundings) (path : Bytes) : Except OpenError Found :=
  (world.place path).map world.found

/-- The content of a file. -/
def readFile (world : Surroundings) (path : Bytes) : Except ReadError Bytes :=
  match world.lookUp path with
  | .error e => .error (.notOpened path e)
  | .ok (.file content) => .ok content
  | .ok .directory => .error (.isDirectory path)
  | .ok (.closed reason) => .error (.notOpened path (.other reason))

/-- The same surroundings after a file was written. Paths still lead where they led. -/
def writeFile (world : Surroundings) (path content : Bytes) : Surroundings :=
  match world.place path with
  | .error _ => world
  | .ok place =>
    { world with found := fun p => if p = place then .file content else world.found p }

/-- A text with the variables replaced by their values. -/
def expand (world : Surroundings) (s : Bytes) : Bytes :=
  Text.expand world.valueOf s

end Surroundings

end TexTidy
