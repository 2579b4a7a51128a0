import StreamLoom.Compilation.Topic
import StreamLoom.Cpp.Generation
import StreamLoom.Llvm.Generation
import StreamLoom.Llvm.Printer
import StreamLoom.Model.Build
import StreamLoom.Model.Printer
import StreamLoom.Nest.Generation
import StreamLoom.Program.Read
import StreamLoom.Schedule.Synthesis
import StreamLoom.Storage.Allocation

/-!
# Compilations

A compilation goes from the files of a program to the loop nests that implement it, and ends at the
first stage that fails. Code for each target is generated from its result. A failure names the stage
in which it arose, and the messages written until then remain.
-/

namespace StreamLoom

variable [Arithmetic]

/-- The options of a compilation. -/
structure Config where
  topics : List Topic := []
  schedule : ScheduleOptions := ⟨true, false⟩
  nest : Nest.NestOptions := ⟨false⟩
  /-- The namespace of generated C++. -/
  space : String := Cpp.defaultNamespace

/-- What the stages of a compilation have found. -/
structure Compilation where
  program : Program
  schedule : Schedule
  /-- The model together with its storage. -/
  allocation : Allocation
  nests : Nest.Nests

/-- A part of a compilation, which writes messages and may fail. -/
abbrev Compiling := ExceptT Failure (StateM (List Message))

namespace Compiling

def write (message : Message) : Compiling Unit := modify (· ++ [message])

/-- Writes the records that were made under a topic, if it is asked for, and ends as given. -/
def report (config : Config) (topic : Topic) (outcome : Except Failure α × List Record) :
    Compiling α := do
  if config.topics.contains topic then outcome.2.forM fun record => write (.record topic record)
  ExceptT.mk (pure outcome.1)

/-- Runs a stage, whose failures are those of the given activity. -/
def stage (config : Config) (topic : Topic) (activity : String) (s : Stage α) : Compiling α :=
  let (result, records) := s.execute
  report config topic (Failure.during activity result, records)

/-- Writes a text, if its topic is asked for. -/
def describe (config : Config) (topic : Topic) (text : String) : Compiling Unit := do
  if config.topics.contains topic then write (.text text)

/-- How a compilation ends, and what it has written. -/
def execute (c : Compiling α) : Except Failure α × List Message := StateT.run (ExceptT.run c) []

end Compiling

namespace Compilation

def model (c : Compilation) : Model := c.allocation.model

/-- The model with its storage, and what each dependency requires of it. -/
def storageText (a : Allocation) : String :=
  a.model.text ++ String.join (a.requirements.map fun r =>
    "requirement " ++ r.dependency.relation.text ++ ": distance=" ++ toString r.distance ++
      " slices=" ++ toString r.slices ++ "\n")

/-- Compiles a program that has been read. -/
def ofReading (config : Config) (reading : Program.Reading) : Compiling Compilation := do
  let program ← Compiling.report config .reading
    (reading.result.mapError Failure.unreadable, reading.records)
  let model ← Compiling.stage config .modeling "building model" (Model.build program)
  Compiling.describe config .model model.text
  let schedule ← Compiling.stage config .scheduling "scheduling"
    (Schedule.synthesize model config.schedule)
  let allocation ← Compiling.stage config .allocation "allocating storage"
    (Allocation.allocate model schedule)
  Compiling.describe config .storage (storageText allocation)
  let nests ← Compiling.stage config .nests "generating loop nests"
    (Nest.generate allocation.model schedule config.nest)
  return ⟨program, schedule, allocation, nests⟩

/-- Compiles the files of a program. -/
def compile (config : Config) (library : Library) (files : List SourceFile) :
    Compiling Compilation :=
  ofReading config (Program.read library files)

/-- The C++ source that implements a compilation. -/
def cpp (config : Config) (c : Compilation) : Compiling String :=
  let (result, records) := Cpp.generate c.model c.nests config.space
  Compiling.report config .generation (Failure.during "generating C++" result, records)

/-- The LLVM module that implements a compilation. -/
def llvm (config : Config) (c : Compilation) : Compiling String := do
  let (result, records) := Llvm.generate c.model c.nests
  let code ← Compiling.report config .generation
    (Failure.during "generating LLVM" result, records)
  return code.text

end Compilation

end StreamLoom
