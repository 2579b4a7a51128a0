import StreamLoom.Failure
import StreamLoom.Llvm.Instruction
import StreamLoom.Report

/-!
# Assembly of LLVM functions

A function is assembled block by block. Its first block holds the variables and the pointers that
stem from the parameters; it is left for the second block once the function is complete.
-/

namespace StreamLoom.Llvm

/-- The function under construction, and the module so far. -/
structure Assembly where
  name : String := ""
  blocks : Array Block := #[]
  /-- The block that instructions are added to. -/
  current : Nat := 0
  /-- The number of instructions of the function. -/
  results : Nat := 0
  /-- The number of labels of the module, apart from those of first blocks. -/
  labels : Nat := 0
  /-- The data of the buffers that the function has used. -/
  data : List (Nat × Value) := []
  /-- The inputs that the function has used. -/
  inputs : List (Nat × Value) := []
  output : Option Value := none
  /-- The functions that have been declared. -/
  declared : List String := []
  /-- What is declared after the function under construction. -/
  pending : List Item := []
  items : List Item := []
  records : List Record := []

abbrev Assembling := ExceptT Failure (StateM Assembly)

namespace Assembling

/-- The first block of the function. -/
def entry : Nat := 0

/-- Adds an instruction to a block. -/
def emitTo (block : Nat) (i : Instruction) : Assembling Value :=
  modifyGet fun a => (.result a.results i.type,
    { a with
      results := a.results + 1
      blocks := a.blocks.modify block fun b => { b with code := b.code.push (a.results, i) } })

/-- Adds an instruction to the current block. -/
def emit (i : Instruction) : Assembling Value := do emitTo (← get).current i

/-- Adds an instruction without a result to the current block. -/
def run (i : Instruction) : Assembling Unit := do
  let _ ← emit i

/-- Adds a block, and returns its number and its label. -/
def block (stem : String) : Assembling (Nat × String) :=
  modifyGet fun a =>
    let label := stem ++ toString (a.labels + 1)
    ((a.blocks.size, label),
      { a with labels := a.labels + 1, blocks := a.blocks.push { label } })

/-- Ends a block. -/
def close (block : Nat) (t : Terminator) : Assembling Unit :=
  modify fun a => { a with
    blocks := a.blocks.modify block fun b => { b with terminator := some t } }

/-- Ends the current block. -/
def leave (t : Terminator) : Assembling Unit := do close (← get).current t

/-- Continues with another block. -/
def enter (block : Nat) : Assembling Unit := modify fun a => { a with current := block }

/-- Begins a function. -/
def start (name : String) : Assembling Unit := do
  modify fun a => { a with
    name
    blocks := #[{ label := "entry" }]
    results := 0
    data := []
    inputs := []
    output := none
    pending := [] }
  let (body, _) ← block "body"
  enter body

/-- Completes a function. -/
def finish : Assembling Unit := do
  let a ← get
  match a.blocks[1]? with
  | some body => close entry (.jump body.label)
  | none => pure ()
  leave .ret
  modify fun a => { a with
    items := a.items ++ [.define ⟨a.name, a.blocks⟩] ++ a.pending
    pending := [] }

/-- Declares a function on doubles when it is first needed. -/
def intrinsic (stem : String) (arity : Nat) : Assembling String := do
  let name := "llvm." ++ stem ++ ".f64"
  modify fun a => if a.declared.contains name then a
    else { a with declared := a.declared ++ [name], pending := a.pending ++ [.declare name arity] }
  return name

/-- Calls a function on doubles. -/
def call (stem : String) (arguments : List Value) : Assembling Value := do
  emit (.call (← intrinsic stem arguments.length) arguments)

end Assembling

end StreamLoom.Llvm
