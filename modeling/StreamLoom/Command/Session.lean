import StreamLoom.Command.Verb
import StreamLoom.Compilation.Basic
import StreamLoom.Terminal.Table

/-!
# Sessions

What the program does when it is run: it reads files, prints, writes files, and ends with an exit
code. Failures are printed as well, those of reading with the lines on which they arise. The exit
code is that of the outcome, unless a contract of the compiler itself was broken.
-/

namespace StreamLoom

/-- An error with the line on which it starts, where its span is marked. -/
def SyntaxError.diagnosis (e : SyntaxError) : String :=
  let line := e.line
  let stop := min e.span.stop (line.start + line.contents.length)
  let copies (n : Int) (c : Char) : String := String.ofList (List.replicate n.toNat c)
  e.text ++ "\n" ++ String.ofList line.contents ++ "\n" ++
    copies (e.span.start - line.start) ' ' ++ copies (max 1 (stop - e.span.start)) '^' ++ "\n"

/-- What is printed on a failure. -/
def Failure.diagnosis (f : Failure) : String :=
  match f.root with
  | .unreadable errors => String.join (errors.map SyntaxError.diagnosis)
  | _ => f.outcome.text ++ ": " ++ f.message ++ "\n"

namespace Command

/-- The exit code after a fault. -/
def faultCode : Nat := 2

/-- What has happened since the program was started. -/
structure Session where
  files : FileTree
  output : String := ""
  messages : List Message := []
  /-- The paths of files that were read or looked for. -/
  visited : List String := []
  /-- The files that were written, in order. -/
  written : List (String × String) := []

abbrev Action := ExceptT Failure (StateM Session)

namespace Action

def ofExcept (x : Except Failure α) : Action α := ExceptT.mk (pure x)

def print (text : String) : Action Unit := modify fun s => { s with output := s.output ++ text }

def visit (paths : List String) : Action Unit :=
  modify fun s => { s with visited := s.visited ++ paths }

/-- Compiles, and keeps the messages. -/
def compiling (c : Compiling α) : Action α := do
  let (result, messages) := c.execute
  modify fun s => { s with messages := s.messages ++ messages }
  ofExcept result

/-- Reads the files of a program, of which there has to be one. -/
def readFiles (names : List String) : Action (List SourceFile) := do
  if names.isEmpty then throw (.usage "no input files")
  names.mapM fun name => do
    visit [name]
    let contents := ((← get).files.read name).mapError Failure.path
    let text ← ofExcept (Failure.during "reading input" contents)
    return ⟨name, text.toList⟩

/-- Writes a file, or prints its contents when its name is a dash. -/
def save (name text : String) : Action Unit := do
  if name = "-" then print text
  else
    visit [name]
    let written := ((← get).files.write name text).mapError Failure.path
    let files ← ofExcept (Failure.during ("writing " ++ name) written)
    modify fun s => { s with files, written := s.written ++ [(name, text)] }

end Action

variable [Arithmetic]

/-- The options that flags ask for. -/
def configOf (settings : Settings) : Except Failure Config := do
  let topics ← Topic.ofNames (settings.texts "topic")
  return { topics := if settings.isOn "verbose" then Topic.all else topics
           schedule := ⟨!settings.isOn "sched-no-opt", settings.isOn "sched-whole"⟩
           nest := ⟨settings.isOn "ast-avoid-branch-in-loop"⟩
           space := settings.text "cpp-namespace" Cpp.defaultNamespace }

def compileFiles (config : Config) (settings : Settings) (names : List String) :
    Action Compilation := do
  let sources ← Action.readFiles names
  let library : Library :=
    { files := (← get).files, importDirs := settings.texts "import", versions := Version.semantic }
  let reading := Program.read library sources
  Action.visit reading.probed
  Action.compiling (Compilation.ofReading config reading)

/-- Compiles a program and writes the code that was asked for. -/
def compile (settings : Settings) (names : List String) : Action Nat := do
  let config ← Action.ofExcept (configOf settings)
  let cppFile := settings.text "cpp" ""
  let llvmFile := settings.text "llvm" ""
  if cppFile.isEmpty && llvmFile.isEmpty then
    Action.print "no output requested (use --cpp or --llvm)\n"
    return Outcome.commandLine.code
  let c ← compileFiles config settings names
  if !cppFile.isEmpty then
    Action.save cppFile (← Action.compiling (c.cpp config))
  if !llvmFile.isEmpty then
    Action.save llvmFile (← Action.compiling (c.llvm config))
  return Outcome.ok.code

/-- The cells of an array in the table of storage. -/
def storageRow (a : DataArray) : List String :=
  [a.name, Text.integers (a.extents.map Extent.code), toString a.buffer.period,
    Text.integers a.buffer.sizes, Text.naturals a.buffer.order, toString a.buffer.length]

/-- A table with the buffer of every array. -/
def storageTable (m : Model) : Except Fault String := do
  let heads := ["array", "extents", "period", "buffer", "order", "length"]
  (← Terminal.Table.ofRows heads.length (heads :: m.arrays.map storageRow)).print?

/-- Prints the model of a program, its schedule and its storage, and its loop nests on demand. -/
def model (settings : Settings) (names : List String) : Action Nat := do
  let config ← Action.ofExcept (configOf settings)
  let c ← compileFiles config settings names
  let table ← Action.ofExcept ((storageTable c.model).mapError Failure.fault)
  Action.print (c.model.text ++ "\n" ++ c.schedule.text ++ "\n\n" ++ table)
  if settings.isOn "ast" then
    Action.print ("\nprologue:\n" ++ Nest.Node.text c.nests.prologue ++ "\nsteady state:\n" ++
      Nest.Node.text c.nests.steady)
  return Outcome.ok.code

/-- The help that the arguments of the verb for it ask for. Nothing is printed for a word that is no
verb. -/
def help (names : List String) : Action Nat := do
  match find? names with
  | some (verb, _) => Action.print verb.helpText
  | none => pure ()
  return Outcome.ok.code

/-- What a verb does. -/
def perform (verb : Verb) (settings : Settings) (names : List String) : Action Nat :=
  if settings.isOn "help" then do
    Action.print verb.helpText
    return Outcome.ok.code
  else match verb with
    | .compile => compile settings names
    | .model => model settings names
    | .help => help names
    | .none => do
      Action.print (if settings.isOn "version" then program ++ " (devel)\n" else verb.helpText)
      return Outcome.ok.code
    | .completion => do
      Action.print verb.helpText
      return Outcome.ok.code

/-- The exit code of an action. A failure is printed, unless it is a fault. -/
def conclude (action : Action Nat) : StateM Session Nat := do
  match ← ExceptT.run action with
  | .ok code => return code
  | .error failure =>
    if failure.fault?.isSome then return faultCode
    else
      modify fun s => { s with output := s.output ++ failure.diagnosis }
      return failure.outcome.code

/-- Runs the program with the given arguments and files. -/
def run (files : FileTree) (args : List String) : Nat × Session :=
  let parsed := do
    let (verb, rest) ← find? args
    let (settings, names) ← parse verb.flags rest
    return (verb, settings, names)
  match parsed with
  | some (verb, settings, names) => (conclude (perform verb settings names)).run { files }
  | none => (Outcome.commandLine.code, { files })

end Command

end StreamLoom
