import StreamLoom.Failure
import StreamLoom.Lowering.Target
import StreamLoom.Storage.Layout

/-!
# Lowering of statements

A point of a statement is lowered by evaluating its computation there and storing the result into the
buffer of its array. In the steady state the point is that of the first period, and the phases of
the buffers account for the current one.
-/

namespace StreamLoom.Lowering

variable [Arithmetic] {m : Type → Type} [Monad m] [MonadExceptOf Failure m] {V : Type}

def arrayAt (model : Model) (number : Nat) : m DataArray :=
  match model.arrays[number]? with
  | some array => pure array
  | none => throw (.fault .indexOutOfRange)

/-- The layout of the buffer of an array. -/
def layoutOf (array : DataArray) : Layout := .ofBuffer array.rank array.buffer

/-! ### Indices -/

/-- Adds a multiple of a value to a sum, which has no terms at first. -/
def addTerm (t : Target m V) (sum : Option V) (v : V) (c : Int) : m (Option V) := do
  if c = 0 then return sum
  let multiple ← if c = 1 then pure v else do t.indexMul v (← t.index c)
  match sum with
  | none => return some multiple
  | some s => return some (← t.indexAdd s multiple)

/-- The sum of a constant and of multiples of values, without those which are zero. -/
def affine (t : Target m V) (c : Int) (values : List V) (coeffs : List Int) : m V := do
  match ← (values.zip coeffs).foldlM (fun sum (v, k) => addTerm t sum v k) none with
  | none => t.index c
  | some sum => if c = 0 then return sum else t.indexAdd sum (← t.index c)

/-- The index that an access pattern gives. -/
def mapped (t : Target m V) (env : List V) (pattern : List Affine) : m (List V) :=
  pattern.mapM fun a => affine t a.const env a.coeffs

/-- The offset of an element in the buffer of its array. The phase turns the buffers of streams. -/
def bufferOffset (model : Model) (t : Target m V) (number : Nat) (index : List V) : m V := do
  if index.isEmpty then t.index 0
  else
    let array ← arrayAt model number
    let layout := layoutOf array
    let flat ← affine t 0 index layout.strides
    if array.buffer.period > 0 then
      let phase ← t.phase number
      let turned ← if layout.slice = 1 then pure phase
        else do t.indexMul phase (← t.index layout.slice)
      t.indexMod (← t.indexAdd flat turned) layout.length
    else t.indexMod flat layout.length

/-- The distances between elements that are adjacent in the given dimensions, stored in row-major
order. -/
def rowMajor (extents : List Extent) (dims : List Nat) : List (Nat × Int) :=
  (dims.zipIdx).map fun (d, i) => (d, Arithmetic.product
    ((dims.drop (i + 1)).map fun e => Extent.code ((extents[e]?).join)))

/-- The distances between the elements of a stream window, where the flow dimension is outermost. -/
def windowStrides (array : DataArray) : List Int :=
  let inner := (List.range array.rank).filter fun d => array.flow != some d
  let strides := rowMajor array.extents (array.flow.toList ++ inner)
  (List.range array.rank).map fun d => (strides.lookup d).getD 0

/-- The offset of an element of a stream, which counts from the first element of the current
phase. -/
def streamOffset (t : Target m V) (array : DataArray) (index : List V) (steady : Bool) : m V :=
  let strides := windowStrides array
  let start := match array.flow with
    | some flow => if steady then fit (-array.buffer.offset * strides.getD flow 0) else 0
    | none => 0
  affine t start index strides

/-! ### Computations -/

/-- What a computation can refer to. -/
structure Scope (V : Type) where
  statement : Statement
  /-- The point of the statement, and then the reduction variables. -/
  env : List V
  steady : Bool

def Scope.bind (s : Scope V) (v : V) : Scope V := { s with env := s.env ++ [v] }

/-- The value of an index variable. In the steady state the flow index is moved to the current
period. -/
def iterator (model : Model) (t : Target m V) (s : Scope V) (v : IteratorValue) : m V := do
  match s.env[v.dim]? with
  | none => throw (.fault .indexOutOfRange)
  | some here =>
    if s.steady && s.statement.flow == some v.dim then
      let array ← arrayAt model s.statement.array
      let period ← t.period
      let moved ← t.indexAdd here (← t.indexMul period (← t.index array.buffer.period))
      affine t v.offset [moved] [v.ratio]
    else affine t v.offset [here] [v.ratio]

/-- The element of a finite input, which is stored in row-major order. -/
def input (model : Model) (t : Target m V) (s : Scope V) (number : Nat) (pattern : List Affine) :
    m V := do
  let index ← mapped t s.env pattern
  match model.inputs[number]? with
  | none => throw (.fault .indexOutOfRange)
  | some i =>
    let strides := (rowMajor i.extents (List.range i.extents.length)).map (·.2)
    t.loadInput number (← affine t 0 index strides)

mutual

/-- The value of a computation. Only the selected arm of a conditional is evaluated, and a reduction
starts with the value at its lower bound. -/
def value (model : Model) (t : Target m V) (s : Scope V) : Computation → m V
  | .constant c => t.constant c
  | .iterator v => iterator model t s v
  | .input number _ access => input model t s number access.pattern
  | .read number _ access => do
    let index ← mapped t s.env access.pattern
    t.load number (← bufferOffset model t number index)
  | .apply .conditional type [condition, first, second] => do
    let common := Op.conditional.operandType [condition.type, first.type, second.type]
    let result ← t.temporary type
    let chosen ← value model t s condition
    t.branch chosen
      (do
        let v ← t.convert (← value model t s first) first.type common
        t.assign result (← t.convert v common type))
      (do
        let v ← t.convert (← value model t s second) second.type common
        t.assign result (← t.convert v common type))
    t.use result
  | .apply op type operands => do
    let common := op.operandType (operands.map (·.type))
    t.primitive op common type (← operandValues model t s common operands)
  | .reduce op type _ lower upper body => do
    let result ← t.temporary type
    let start ← t.index lower
    let first ← value model t (s.bind start) body
    t.assign result (← t.convert first body.type type)
    if upper > lower then
      t.loop (fit (lower + 1)) upper fun r => do
        let next ← t.convert (← value model t (s.bind r) body) body.type type
        let sum ← t.use result
        t.assign result (← t.primitive op type type [sum, next])
    t.use result

/-- The values of operands, converted to a common type. -/
def operandValues (model : Model) (t : Target m V) (s : Scope V) (common : ValueType) :
    List Computation → m (List V)
  | [] => return []
  | c :: rest => do
    let v ← t.convert (← value model t s c) c.type common
    return v :: (← operandValues model t s common rest)

end

/-! ### Statements -/

/-- The value of a statement. Streams are copied from the window of their input. -/
def statementValue (model : Model) (t : Target m V) (s : Scope V) (array : DataArray) : m V :=
  match s.statement.computation, array.input.isSome with
  | .input number _ _, true => do t.loadInput number (← streamOffset t array s.env s.steady)
  | computation, _ => value model t s computation

/-- Lowers a point of a statement. The index holds the period, which is not used, and then the point.
The output is read back from the buffer, since the value may depend on the slot just overwritten. -/
def statement (model : Model) (t : Target m V) (number : Nat) (index : List V) (steady : Bool) :
    m Unit := do
  match model.statements[number]? with
  | none => throw (.fault .indexOutOfRange)
  | some s =>
    let array ← arrayAt model s.array
    if index.length ≠ s.dims + 1 then
      throw (.fault (.broken ("statement " ++ s.name ++ " visited with " ++ toString index.length ++
        " indices")))
    let scope : Scope V := ⟨s, index.tail, steady⟩
    t.note ("statement " ++ s.name ++ " (steady=" ++ toString steady ++ "): " ++ s.computation.text)
    let result ← statementValue model t scope array
    let element ← t.convert result s.computation.type array.type
    let offset ← bufferOffset model t s.array scope.env
    t.store s.array offset element
    if array.isOutput then
      let position ← streamOffset t array scope.env steady
      t.storeOutput position (← t.load s.array offset)

end StreamLoom.Lowering
