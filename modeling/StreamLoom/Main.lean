import StreamLoom.Command.Session

/-!
# The program

Runs the program on the files of the disk. What a run needs to know of the disk is found by running
it: whenever it has looked at a path that was not loaded yet, that path is loaded and the run starts
anew. Nothing is printed or written before a run has all that it needs.
-/

namespace StreamLoom.Command

/-- What stands at a place on the disk, given a test for directories. -/
def entryAt (isDirectory : String → IO Bool) (place : String) : IO (Option FileEntry) := do
  if ← isDirectory place then return some .directory
  try
    let bytes ← IO.FS.readBinFile place
    return some (.file (String.ofList (Text.decode bytes.toList)))
  catch _ => return none

/-- The places on the way to the paths that a run has looked at. -/
def placesOf (files : FileTree) (paths : List String) : List String :=
  (paths.flatMap fun path =>
    let place := files.absolute path
    FileTree.ancestors place ++ [place]).eraseDups

/-- Adds what stands at some places to the files. -/
def load (isDirectory : String → IO Bool) (files : FileTree) (places : List String) :
    IO FileTree :=
  places.foldlM (fun files place => do
    match ← entryAt isDirectory place with
    | some entry => return files.put place entry
    | none => return files) files

/-- Runs until everything that the run looks at has been loaded. -/
partial def settle (isDirectory : String → IO Bool) (args : List String) (files : FileTree)
    (loaded : List String) : IO (Nat × Session) := do
  let (code, session) := @run .word64 files args
  match (placesOf files session.visited).filter fun place => !loaded.contains place with
  | [] => return (code, session)
  | places => settle isDirectory args (← load isDirectory files places) (loaded ++ places)

/-- How a message is shown to the user. -/
def messageLine : Message → String
  | .record topic r =>
    (if r.level = .debug then "debug" else "warning") ++ ": " ++ topic.name ++ ": " ++ r.message ++
      "\n"
  | .text text => text

end StreamLoom.Command

def main (args : List String) : IO UInt32 := do
  let home ← IO.currentDir
  let isDirectory (place : String) : IO Bool := (home / place).isDir
  let (code, session) ← StreamLoom.Command.settle isDirectory args (.empty home.toString) []
  session.messages.forM fun message => IO.eprint (StreamLoom.Command.messageLine message)
  session.written.forM fun (path, text) => IO.FS.writeFile path text
  IO.print session.output
  return code.toUInt32
