import StreamLoom.Command.Flag
import StreamLoom.Cpp.Generation

/-!
# Verbs

What the program can be told to do, the flags of each verb, and the help on it.
-/

namespace StreamLoom.Command

/-- The name of the program. -/
def program : String := "polystream"

inductive Verb where
  /-- No verb at all. -/
  | none
  | compile
  | completion
  | help
  | model
deriving DecidableEq, Repr

namespace Verb

/-- The verbs that can be named. -/
def all : List Verb := [compile, completion, help, model]

def name : Verb → String
  | none => program
  | compile => "compile"
  | completion => "completion"
  | help => "help"
  | model => "model"

def ofName? (name : String) : Option Verb := all.find? (·.name = name)

/-- What a verb does, in a few words. -/
def summary : Verb → String
  | none => "An ahead-of-time compiler for stream programs."
  | compile => "compile a stream program into C++ and/or LLVM IR."
  | completion => "Generate the autocompletion script for the specified shell"
  | help => "Help about any command"
  | model => "print the polyhedral model of a stream program."

def description : Verb → String
  | none => "Compiles functional stream programs into C++ or LLVM IR, where every\n" ++
      "\t intermediate array is held in a circular buffer of minimal size."
  | compile => "Compile a given set of interchange file(s) into C++ source and/or an LLVM IR\n" ++
      "\t module, each of which defines an initialize and a process function."
  | model => "Print the polyhedral model of a given program, along with its schedule, the\n" ++
      "\t storage allocated to each array and (optionally) the loop nests implementing it."
  | verb => verb.summary

/-- How a verb is used. -/
def synopsis : Verb → String
  | none => program ++ " [flags]"
  | compile => program ++ " compile [flags] program_file(s)"
  | completion => program ++ " completion"
  | help => program ++ " help [command] [flags]"
  | model => program ++ " model [flags] program_file(s)"

/-- The flags that all verbs have. -/
def globalFlags : List Flag :=
  [{ name := "ast-avoid-branch-in-loop", purpose := "split time loops rather than guard statements" },
    { name := "import", letter := some 'i', kind := .texts,
      purpose := "add a directory against which imports are resolved" },
    { name := "sched-no-opt", purpose := "disable loop fusion when scheduling the prologue" },
    { name := "sched-whole", purpose := "schedule prologue and steady state together" },
    { name := "topic", kind := .texts, purpose := "enable a verbose topic (e.g. ph-scheduling)" },
    { name := "verbose", letter := some 'v', purpose := "enable every verbose topic" }]

/-- The flags that only a verb has, besides the one for help on it. -/
def ownFlags : Verb → List Flag
  | none => [{ name := "version", purpose := "Report version of this executable" }]
  | compile =>
    [{ name := "cpp", kind := .text, purpose := "write C++ source to a given file (or - for stdout)" },
      { name := "cpp-namespace", kind := .text, purpose := "namespace of generated C++",
        default := Cpp.defaultNamespace },
      { name := "llvm", kind := .text, purpose := "write LLVM IR to a given file (or - for stdout)" },
      { name := "watch", purpose := "recompile whenever an input file changes" }]
  | model => [{ name := "ast", purpose := "print the loop nests of each phase" }]
  | _ => []

def helpFlag (v : Verb) : Flag :=
  { name := "help", letter := some 'h', purpose := "help for " ++ v.name }

/-- All flags of a verb. -/
def flags (v : Verb) : List Flag := v.helpFlag :: v.ownFlags ++ globalFlags

/-! ### Help -/

/-- A text with blanks after it. -/
def fill (width : Nat) (text : String) : String :=
  text ++ String.ofList (List.replicate (width - text.length) ' ')

/-- How a flag is written in a list of flags. -/
def flagLabel (f : Flag) : String :=
  let letter := match f.letter with
    | some c => "  -" ++ c.toString ++ ", --"
    | Option.none => "      --"
  letter ++ f.name ++ match f.kind with
    | .switch => ""
    | .text => " string"
    | .texts => " stringArray"

/-- Flags in the order of their names, with their purposes in a column. -/
def flagTable (flags : List Flag) : String :=
  let sorted := flags.mergeSort fun a b => a.name ≤ b.name
  let width := (sorted.map fun f => (flagLabel f).length).foldl max 0
  String.join (sorted.map fun f => fill (width + 3) (flagLabel f) ++ f.purpose ++
    (if f.default.isEmpty then "" else " (default \"" ++ f.default ++ "\")") ++ "\n")

def verbTable : String :=
  let width := (all.map fun v => v.name.length).foldl max 0
  String.join (all.map fun v => "  " ++ fill (width + 2) v.name ++ v.summary ++ "\n")

/-- The help on a verb. -/
def helpText (v : Verb) : String :=
  let own := v.helpFlag :: v.ownFlags
  v.description ++ "\n\nUsage:\n  " ++ v.synopsis ++ "\n" ++
    if v = none then
      "  " ++ program ++ " [command]\n\nAvailable Commands:\n" ++ verbTable ++
        "\nFlags:\n" ++ flagTable (own ++ globalFlags) ++
        "\nUse \"" ++ program ++ " [command] --help\" for more information about a command.\n"
    else "\nFlags:\n" ++ flagTable own ++ "\nGlobal Flags:\n" ++ flagTable globalFlags

end Verb

/-- The verb that arguments ask for, and the other arguments. Words that are no verb are refused. -/
def find? (args : List String) : Option (Verb × List String) :=
  let flags := Verb.ownFlags .none ++ Verb.globalFlags
  match words flags args with
  | [] => some (.none, args)
  | word :: _ => (Verb.ofName? word).map fun verb => (verb, withoutWord flags word args)

end StreamLoom.Command
