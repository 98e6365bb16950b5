import TexTidy.Bytes

/-!
# TexTidy.Path

File paths with slashes between their parts. A path is normal if it holds no empty part, no `.` and no
`..` that could be resolved without looking at the files.
-/

namespace TexTidy.Path

/-- The parts of a path. -/
def parts : Bytes → List Bytes
  | [] => [[]]
  | c :: s =>
    if c == Byte.slash then [] :: parts s
    else match parts s with
      | [] => [[c]]
      | p :: ps => (c :: p) :: ps

/-- Whether a path starts at the root. -/
def isAbsolute (path : Bytes) : Bool :=
  path.head? == some Byte.slash

/-- Goes from one part to the next; `done` holds the resolved parts, the last first. -/
def resolve (rooted : Bool) (done : List Bytes) (part : Bytes) : List Bytes :=
  if part.isEmpty || part == bytes "." then done
  else if part == bytes ".." then
    match done with
    | [] => if rooted then [] else [part]
    | last :: before => if last == bytes ".." then part :: done else before
  else part :: done

/-- The shortest path that means the same. -/
def clean (path : Bytes) : Bytes :=
  let rooted := isAbsolute path
  let body := Bytes.join [Byte.slash] ((parts path).foldl (resolve rooted) []).reverse
  if rooted then Byte.slash :: body
  else if body.isEmpty then [Byte.dot]
  else body

/-- A path inside a directory. -/
def join (dir path : Bytes) : Bytes :=
  if dir.isEmpty && path.isEmpty then []
  else if dir.isEmpty then clean path
  else if path.isEmpty then clean dir
  else clean (dir ++ Byte.slash :: path)

/-- The directory of a path. -/
def dir (path : Bytes) : Bytes :=
  clean ((path.reverse.dropWhile (· != Byte.slash)).reverse)

end TexTidy.Path
