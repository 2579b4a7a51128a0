import StreamLoom.Cpp.Target
import StreamLoom.Nest.Basic

/-!
# Generation of C++

The source defines a structure with all buffers, a function which executes the prologue, and a
function which executes one period of the steady state and then turns the buffers.
-/

namespace StreamLoom.Cpp

open Fragment (text int binary)

/-- The namespace of the definitions when none is given. -/
def defaultNamespace : String := "stream"

def includes : String :=
  "#include <algorithm>\n#include <cmath>\n#include <cstdint>\n#include <cstdlib>\n\n"

/-- The functions that indices and operations are written with. -/
def helpers : String :=
  "inline int64_t floord(int64_t a, int64_t b) \x7b return (a >= 0) ? a / b : -((-a + b - 1) / b); \x7d\n" ++
  "inline int64_t ceild(int64_t a, int64_t b) \x7b return (a >= 0) ? (a + b - 1) / b : -((-a) / b); \x7d\n" ++
  "inline int64_t mod(int64_t a, int64_t b) \x7b int64_t r = a % b; return (r < 0) ? r + std::abs(b) : r; \x7d\n" ++
  "inline double mod(double a, double b) \x7b double r = std::fmod(a, b); return (r < 0) ? r + std::fabs(b) : r; \x7d\n" ++
  "inline int64_t floor_div(int64_t a, int64_t b) \x7b int64_t q = a / b; " ++
    "return (q * b != a && ((a < 0) != (b < 0))) ? q - 1 : q; \x7d\n" ++
  "inline int64_t floor_div(double a, double b) \x7b return static_cast<int64_t>(std::floor(a / b)); \x7d\n\n"

variable [Arithmetic]

/-! ### Loop nests -/

mutual

/-- An integer expression of a loop nest. -/
def expr : Nest.Expr → Except Fault Fragment
  | .int value => .ok (int value)
  | .name name => .ok (text name)
  | .binary op left right => do
    let l ← expr left
    let r ← expr right
    return match op with
      | .add => binary "+" l r
      | .sub => binary "-" l r
      | .mul => binary "*" l r
      | .floorDiv => .call (text "floord") (.commas [l, r])
      | .ceilDiv => .call (text "ceild") (.commas [l, r])
      | .mod => .call (text "mod") (.commas [l, r])
  | .extreme op elements => do
    let f := text ("std::" ++ op.text ++ "<int64_t>")
    match ← exprs elements with
    | [] => .error .indexOutOfRange
    | e :: rest => return rest.foldl (fun sum x => .call f (.commas [sum, x])) e

def exprs : List Nest.Expr → Except Fault (List Fragment)
  | [] => .ok []
  | e :: rest => do
    let f ← expr e
    return f :: (← exprs rest)

end

def condition (c : Nest.Condition) : Except Fault Fragment := do
  return binary c.op.text (← expr c.left) (← expr c.right)

/-- The conjunction of some conditions, which is missing when there are none. -/
def conjunction (conditions : List Nest.Condition) : Except Fault Fragment := do
  match ← conditions.mapM condition with
  | [] => return .missing
  | c :: rest => return rest.foldl (binary "&&") c

def guarded (x : Except Fault α) : Drafting α :=
  match x with
  | .ok x => return x
  | .error fault => throw (.fault fault)

mutual

/-- Adds a node of a loop nest to the current scope. -/
def node (model : Model) (steady : Bool) : Nest.Node → Drafting Unit
  | .block body => do
    let body ← Drafting.nested (nodes model steady body)
    Drafting.add (.block body)
  | .loop iterator lower upper body => do
    let body ← Drafting.nested (nodes model steady body)
    let lower ← guarded (expr lower)
    let upper ← guarded (expr upper)
    Drafting.add (loopOver (text iterator) lower upper body)
  | .guarded conditions body => do
    let body ← Drafting.nested (nodes model steady body)
    Drafting.add (.branch (← guarded (conjunction conditions)) body [])
  | .assign name value => do
    Drafting.add (.declare (text "int64_t") (text name) (← guarded (expr value)))
  | .visit statement _ index => do
    let index ← guarded (exprs index)
    Lowering.statement model (target model) statement index steady

def nodes (model : Model) (steady : Bool) : List Nest.Node → Drafting Unit
  | [] => return
  | n :: rest => do
    node model steady n
    nodes model steady rest

end

/-! ### Definitions -/

/-- The structure that holds every buffer and its phase. -/
def state (model : Model) : Drafting Fragment := do
  let fields ← model.arrays.mapM fun array => do
    let buffer := Fragment.declare (← typeOf array.type)
      (.element (text (bufferName array)) (int array.buffer.length)) .missing
    let phase := Fragment.declare (text "int64_t") (text (phaseName array)) .missing
    return if array.buffer.period > 0 then [buffer, phase] else [buffer]
  return .struct "state"
    (fields.flatten ++ [.declare (text "int64_t") (text "period") .missing])

/-- Turns the buffers at the end of a period. -/
def advance (model : Model) : Drafting Unit := do
  for array in model.arrays do
    if array.buffer.period > 0 then
      let phase := ofState (phaseName array)
      let next := binary "+" phase (int array.buffer.period)
      let turned ← guarded (indexMod next (Lowering.layoutOf array).slots)
      Drafting.add (.assign phase turned)
  Drafting.add (.increment (ofState "period"))

/-- The parameters of a function: the inputs, the output and the state. -/
def parameters (model : Model) : Drafting (List Fragment) := do
  let inputs ← (model.inputs.zipIdx).mapM fun (input, i) => do
    return Fragment.parameter (.sequence [text "const ", ← typeOf input.type, text "*"])
      (text (inputName i))
  let output ← match model.output with
    | some array => do
      let type ← typeOf (← Lowering.arrayAt model array).type
      pure [Fragment.parameter (.sequence [type, text "*"]) outputParameter]
    | none => pure []
  return inputs ++ output ++ [.parameter (text "state*") stateParameter]

/-- The function of the prologue, or that of the steady state. -/
def function (model : Model) (name : String) (body : List Nest.Node) (steady : Bool) :
    Drafting Fragment := do
  let parameters ← parameters model
  let body ← Drafting.nested do
    if !steady then Drafting.add (.assign (.unary "*" stateParameter) (text "state()"))
    nodes model steady body
    if steady then advance model
  return .function "" (text "void") name parameters body

/-- All definitions. There is no function for a steady state without statements. -/
def definitions (model : Model) (nests : Nest.Nests) : Drafting (List Fragment) := do
  let state ← state model
  let prologue ← function model "initialize" nests.prologue false
  let steady ← if nests.steady.isEmpty then pure []
    else do pure [Fragment.blankLine, ← function model "process" nests.steady true]
  return [.verbatim helpers, state, .blankLine, prologue] ++ steady ++ [.blankLine]

def source (model : Model) (nests : Nest.Nests) (space : String) : Drafting String := do
  let body ← definitions model nests
  let name := if space.isEmpty then defaultNamespace else space
  return includes ++ (← guarded (Fragment.render (.scope name body))) ++ "\n"

/-- The C++ source of a model, given the loop nests of its schedule, and the records made. -/
def generate (model : Model) (nests : Nest.Nests) (space : String) :
    Except Failure String × List Record :=
  let (result, draft) := StateT.run (ExceptT.run (source model nests space)) {}
  (result, draft.records)

end StreamLoom.Cpp
