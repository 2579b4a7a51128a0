import StreamLoom.Relation.Mapping
import StreamLoom.Source.File

/-!
# Failures

The causes for which a program is not compiled, and the words in which each of them is reported. A
cause can stand within the activity during which it arose, which is put before its message.
-/

namespace StreamLoom

inductive Failure where
  | usage (message : String)
  | path (message : String)
  | unreadable (errors : List SyntaxError)
  | malformed (error : SyntaxError)
  | unmodelled (message : String) (cause : Option SyntaxError)
  | infeasible (statements : List String) (reason : String)
  | unsized (producer consumer array reason : String)
  | unsupported (target operation : String)
  | invalidMap (cause : InvalidMap)
  | unbounded (cause : Unbounded)
  | other (message : String)
  | within (activity : String) (cause : Failure)
  | fault (cause : Fault)

namespace Failure

/-- Whether this is a fault, which is reported as it is. -/
def fault? : Failure → Option Fault
  | fault cause => some cause
  | within _ cause => cause.fault?
  | _ => none

/-- The failure without the activities during which it arose. -/
def root : Failure → Failure
  | within _ cause => cause.root
  | failure => failure

/-- What several errors of a file are summarised as. -/
def summary : List SyntaxError → String
  | [] => ""
  | [e] => e.message
  | e :: rest => e.message ++ " (and " ++ toString rest.length ++ " more errors)"

def message : Failure → String
  | usage message => message
  | path message => message
  | unreadable errors => summary errors
  | malformed error => error.text
  | unmodelled message none => message
  | unmodelled message (some cause) => SyntaxError.text { cause with message }
  | infeasible statements reason =>
    "no valid schedule for \x7b" ++ ", ".intercalate statements ++ "\x7d (" ++ reason ++ ")"
  | unsized producer consumer array reason =>
    "cannot size buffer of " ++ array ++ " for " ++ producer ++ " -> " ++ consumer ++
      " (" ++ reason ++ ")"
  | unsupported target operation => target ++ " target: " ++ operation ++ " not implemented"
  | invalidMap cause => cause.message
  | unbounded cause => cause.message
  | other message => message
  | within activity cause => activity ++ ": " ++ cause.message
  | fault cause => cause.message

end Failure

/-- How a compilation ends, which is also the exit code of the program. -/
inductive Outcome where
  | ok
  | commandLine
  | inputOutput
  | syntaxError
  | modeling
  | scheduling
  | sizing
  | notImplemented
  | internal
deriving DecidableEq, Repr

namespace Outcome

def all : List Outcome :=
  [ok, commandLine, inputOutput, syntaxError, modeling, scheduling, sizing, notImplemented, internal]

def code (o : Outcome) : Nat := all.idxOf o

def text : Outcome → String
  | ok => "ok"
  | commandLine => "command-line error"
  | inputOutput => "i/o error"
  | syntaxError => "syntax error"
  | modeling => "modeling error"
  | scheduling => "scheduling error"
  | sizing => "sizing error"
  | notImplemented => "not implemented"
  | internal => "internal error"

end Outcome

/-- The outcome that a failure leads to is that of its cause. -/
def Failure.outcome : Failure → Outcome
  | .usage _ => .commandLine
  | .path _ => .inputOutput
  | .unreadable _ | .malformed _ => .syntaxError
  | .unmodelled .. => .modeling
  | .infeasible .. => .scheduling
  | .unsized .. => .sizing
  | .unsupported .. => .notImplemented
  | .invalidMap _ => .internal
  | .unbounded _ => .sizing
  | .other _ | .fault _ => .internal
  | .within _ cause => cause.outcome

/-- Puts an activity before a failure, unless it is a fault. -/
def Failure.during (activity : String) : Except Failure α → Except Failure α
  | .ok x => .ok x
  | .error cause => .error (if cause.fault?.isSome then cause else .within activity cause)

end StreamLoom
