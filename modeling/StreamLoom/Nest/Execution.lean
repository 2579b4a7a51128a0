import StreamLoom.Nest.Basic
import StreamLoom.Text.Listing

/-!
# Execution of loop nests

Executing a loop nest visits points of statements one after another. When it ends in a fault, the
visits made until then remain.
-/

namespace StreamLoom.Nest

/-- A statement that is executed, and the index at which it is. -/
structure Visit where
  statement : Nat
  name : String
  index : List Int
deriving DecidableEq, Repr

def Visit.text (v : Visit) : String := v.name ++ Text.integers v.index

/-- The visits of an execution, and how it ends. -/
structure Trace (α : Type) where
  visits : List Visit
  result : Except Fault α

namespace Trace

instance : Monad Trace where
  pure x := ⟨[], .ok x⟩
  bind t f := match t.result with
    | .error fault => ⟨t.visits, .error fault⟩
    | .ok x =>
      let rest := f x
      ⟨t.visits ++ rest.visits, rest.result⟩

def ofExcept (x : Except Fault α) : Trace α := ⟨[], x⟩

def emit (v : Visit) : Trace Unit := ⟨[v], .ok ()⟩

/-- Executes a body for as many consecutive values as the count says. -/
def forValues (body : Int → Trace Unit) : Nat → Int → Trace Unit
  | 0, _ => pure ()
  | count + 1, x => do
    body x
    forValues body count (x + 1)

end Trace

namespace Node

variable [Arithmetic]

mutual

/-- Executes a node, and returns the variables that are bound after it. -/
def execute (env : Env) : Node → Trace Env
  | block body => do
    executeAll env body
    return env
  | loop iterator lower upper body => do
    let lo ← Trace.ofExcept (lower.eval env)
    let hi ← Trace.ofExcept (upper.eval env)
    Trace.forValues (fun x => executeAll ((iterator, x) :: env) body) (hi - lo + 1).toNat lo
    return env
  | guarded conditions body => do
    if ← Trace.ofExcept (Condition.allHold env conditions) then executeAll env body
    return env
  | assign name value => do
    let x ← Trace.ofExcept (value.eval env)
    return (name, x) :: env
  | visit statement name index => do
    let index ← Trace.ofExcept (Expr.evalAll env index)
    Trace.emit ⟨statement, name, index⟩
    return env

/-- Executes the nodes of a block. -/
def executeAll (env : Env) : List Node → Trace Unit
  | [] => pure ()
  | n :: rest => do
    let env ← n.execute env
    executeAll env rest

end

end Node

end StreamLoom.Nest
