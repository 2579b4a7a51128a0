import StreamLoom.Llvm.Target
import StreamLoom.Nest.Basic

/-!
# Generation of LLVM

The module defines a function which resets all phases and executes the prologue, and a function which
executes one period of the steady state and then turns the buffers. The caller allocates the buffers,
whose lengths the module states.
-/

namespace StreamLoom.Llvm

open Assembling (emit run)

variable [Arithmetic]

/-! ### Loop nests -/

/-- The values of iterators and assigned variables, innermost first. -/
abbrev Bindings := List (String × Value)

mutual

/-- An integer expression of a loop nest. -/
def expr (env : Bindings) : Nest.Expr → Assembling Value
  | .int value => return .index value
  | .name name =>
    match env.lookup name with
    | some v => return v
    | none => throw (.fault (.broken ("unbound variable " ++ name)))
  | .binary op left right => do
    let l ← expr env left
    let r ← expr env right
    match op with
    | .add => indexAdd l r
    | .sub => emit (.binary .sub l r)
    | .mul => indexMul l r
    | .floorDiv => floorDiv l r
    | .ceilDiv => ceilDiv l r
    | .mod => mod l r
  | .extreme op elements => extremeOf env op none elements

/-- The extreme of some expressions and of a value found before. -/
def extremeOf (env : Bindings) (op : Nest.Extreme) (found : Option Value) :
    List Nest.Expr → Assembling Value
  | [] =>
    match found with
    | some v => return v
    | none => throw (.fault .indexOutOfRange)
  | e :: rest => do
    let v ← expr env e
    match found with
    | none => extremeOf env op (some v) rest
    | some u =>
      let p : IntPredicate := if op = .min then .slt else .sgt
      extremeOf env op (some (← extreme p u v)) rest

end

def comparison : Nest.Comparison → IntPredicate
  | .le => .sle
  | .ge => .sge
  | .eq => .eq

/-- The conjunction of some conditions and of one found before. -/
def conjunction (env : Bindings) : Option Value → List Nest.Condition → Assembling Value
  | found, [] => return found.getD (.bool true)
  | found, c :: rest => do
    let l ← expr env c.left
    let r ← expr env c.right
    let holds ← emit (.compareInt (comparison c.op) l r)
    match found with
    | none => conjunction env (some holds) rest
    | some v => conjunction env (some (← emit (.binary .and v holds))) rest

mutual

/-- Adds a node of a loop nest, and returns what is bound after it. -/
def node (model : Model) (steady : Bool) (env : Bindings) : Nest.Node → Assembling Bindings
  | .block body => do
    nodes model steady env body
    return env
  | .loop iterator lower upper body => do
    let lower ← expr env lower
    let upper ← expr env upper
    loop lower upper fun v => nodes model steady ((iterator, v) :: env) body
    return env
  | .guarded conditions body => do
    let (thenBlock, thenLabel) ← Assembling.block "guard"
    let (mergeBlock, mergeLabel) ← Assembling.block "merge"
    let condition ← conjunction env none conditions
    Assembling.leave (.branch condition thenLabel mergeLabel)
    Assembling.enter thenBlock
    nodes model steady env body
    Assembling.leave (.jump mergeLabel)
    Assembling.enter mergeBlock
    return env
  | .assign name value => do
    let v ← expr env value
    return (name, v) :: env
  | .visit statement _ index => do
    let index ← index.mapM (expr env)
    Lowering.statement model (target model) statement index steady
    return env

def nodes (model : Model) (steady : Bool) (env : Bindings) : List Nest.Node → Assembling Unit
  | [] => return
  | n :: rest => do
    let env ← node model steady env n
    nodes model steady env rest

end

/-! ### Functions -/

/-- The arrays whose buffers turn. -/
def turning (model : Model) : List (DataArray × Nat) :=
  (model.arrays.zipIdx).filter (·.1.buffer.period > 0)

/-- Resets all phases and the number of periods. -/
def reset (model : Model) : Assembling Unit := do
  (turning model).forM fun (_, i) => do run (.store zero (← phaseField i))
  run (.store zero periodParameter)

/-- Turns the buffers at the end of a period. -/
def advance (model : Model) : Assembling Unit := do
  (turning model).forM fun (array, i) => do
    let next ← indexAdd (← phase i) (.index array.buffer.period)
    let turned ← indexMod next (Lowering.layoutOf array).slots
    run (.store turned (← phaseField i))
  let count ← emit (.load .i64 periodParameter)
  run (.store (← emit (.binary .add count one)) periodParameter)

/-- The function of the prologue, or that of the steady state. -/
def function (model : Model) (name : String) (body : List Nest.Node) (steady : Bool) :
    Assembling Unit := do
  Assembling.start name
  if !steady then reset model
  nodes model steady [] body
  if steady then advance model
  Assembling.finish

/-- Both functions. There is none for a steady state without statements. -/
def functions (model : Model) (nests : Nest.Nests) : Assembling Module := do
  function model "initialize" nests.prologue false
  if !nests.steady.isEmpty then function model "process" nests.steady true
  return ⟨model.arrays.map (·.buffer.length), (← get).items⟩

/-- The module of a model, given the loop nests of its schedule, and the records made. -/
def generate (model : Model) (nests : Nest.Nests) : Except Failure Module × List Record :=
  let (result, assembly) := StateT.run (ExceptT.run (functions model nests)) {}
  (result, assembly.records)

end StreamLoom.Llvm
