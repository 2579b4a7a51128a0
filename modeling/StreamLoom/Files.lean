/-!
# Files and paths

A compilation reads from a finite tree of files below a working directory. Paths are compared in
their cleaned absolute form, in which they have no empty, `.` or `..` parts.
-/

namespace StreamLoom

namespace Path

def isAbsolute (path : String) : Bool := path.startsWith "/"

/-- What stands between the slashes of a path. -/
def parts (path : String) : List String := (path.toList.splitOn '/').map String.ofList

/-- Goes from a place to one of its parts; above the root there is only the root. -/
def enter (rooted : Bool) (done : List String) (part : String) : List String :=
  if part = "" ∨ part = "." then done
  else if part = ".." then
    match done.getLast? with
    | none => if rooted then done else [".."]
    | some last => if last = ".." then done ++ [".."] else done.dropLast
  else done ++ [part]

/-- The parts of a path after resolving `.` and `..`. -/
def resolve (rooted : Bool) (parts : List String) : List String := parts.foldl (enter rooted) []

/-- The shortest path that denotes the same place. -/
def clean (path : String) : String :=
  let rooted := isAbsolute path
  let text := "/".intercalate (resolve rooted (parts path))
  if rooted then "/" ++ text else if text.isEmpty then "." else text

/-- A path below a directory. -/
def join (directory path : String) : String :=
  match directory.isEmpty, path.isEmpty with
  | true, true => ""
  | true, false => clean path
  | false, true => clean directory
  | false, false => clean (directory ++ "/" ++ path)

/-- The directory that holds a path. -/
def parent (path : String) : String :=
  let text := "/".intercalate (parts path).dropLast
  if (parts path).length = 2 ∧ text.isEmpty then "/" else clean text

end Path

inductive FileEntry where
  | file (contents : String)
  | directory
deriving DecidableEq

/-- The files below a working directory, by their absolute paths. -/
structure FileTree where
  home : String
  entries : List (String × FileEntry)

namespace FileTree

def absolute (t : FileTree) (path : String) : String :=
  if Path.isAbsolute path then Path.clean path else Path.join t.home path

def find? (t : FileTree) (path : String) : Option FileEntry := t.entries.lookup (t.absolute path)

def size (t : FileTree) : Nat := t.entries.length

/-- The place that a part of a path leads to from another place, which has to be a directory. -/
def follow (t : FileTree) (place part : String) : Except String String :=
  match t.entries.lookup place with
  | some .directory => .ok (Path.join place part)
  | some (.file _) => .error "not a directory"
  | none => .error "no such file or directory"

/-- The place of a path, all directories on the way to which have to exist. -/
def locate (t : FileTree) (path : String) : Except String String :=
  if path.isEmpty then .error "no such file or directory"
  else (Path.parts path).foldlM t.follow (if Path.isAbsolute path then "/" else t.home)

/-- The contents of a file, or the reason for which it cannot be read. -/
def read (t : FileTree) (path : String) : Except String String :=
  match t.locate path with
  | .error reason => .error ("open " ++ path ++ ": " ++ reason)
  | .ok place =>
    match t.entries.lookup place with
    | some (.file contents) => .ok contents
    | some .directory => .error ("read " ++ path ++ ": is a directory")
    | none => .error ("open " ++ path ++ ": no such file or directory")

/-- The proper ancestors of an absolute path. -/
def ancestors (path : String) : List String :=
  let parts := (Path.parts path).drop 1
  (List.range parts.length).map fun n => "/" ++ "/".intercalate (parts.take n)

def put (t : FileTree) (path : String) (entry : FileEntry) : FileTree :=
  let path := t.absolute path
  { t with entries := (path, entry) :: t.entries.filter (·.1 ≠ path) }

/-- Adds an entry and the directories above it. -/
def insert (t : FileTree) (path : String) (entry : FileEntry) : FileTree :=
  let above := (ancestors (t.absolute path)).filter fun p => (t.entries.lookup p).isNone
  ({ t with entries := t.entries ++ above.map fun p => (p, FileEntry.directory) }).put path entry

/-- A tree with no files below its working directory. -/
def empty (home : String) : FileTree :=
  FileTree.insert ⟨home, []⟩ home .directory

/-- Replaces the contents of a file, or gives the reason for which it cannot be written. A path that
ends with a slash is that of a directory. -/
def write (t : FileTree) (path contents : String) : Except String FileTree :=
  let base := String.ofList ((path.toList.reverse.dropWhile (· = '/')).reverse)
  let place := if base.isEmpty && !path.isEmpty then .ok "/" else t.locate base
  match place with
  | .error reason => .error ("open " ++ path ++ ": " ++ reason)
  | .ok place =>
    if base ≠ path || t.entries.lookup place = some .directory then
      .error ("open " ++ path ++ ": is a directory")
    else .ok (t.put place (.file contents))

end FileTree

end StreamLoom
