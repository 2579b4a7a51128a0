import StreamLoom.Llvm.Assembly
import StreamLoom.Lowering.Walk

/-!
# LLVM as a target

Values are registers and constants. Indices that are known are computed at once. Variables live in
stack slots, since their values are assigned in several blocks.
-/

namespace StreamLoom.Llvm

open Assembling (emit emitTo run entry)

def targetName : String := "LLVM"

def zero : Value := .index 0

def one : Value := .index 1

def typeOf : ValueType → Assembling Ty
  | .bool => return .i1
  | .int => return .i64
  | .real => return .double
  | .unknown => throw (.fault (.broken ("unknown type " ++ ValueType.unknown.text)))

def constant : Constant → Value
  | .bool value => .bool value
  | .int value => .index value
  | .real value => .real value

/-! ### Integers -/

/-- The quotient rounded down: one less than the truncated one when there is a remainder whose sign
is not that of the divisor. -/
def floorDiv (x y : Value) : Assembling Value := do
  let q ← emit (.binary .sdiv x y)
  let r ← emit (.binary .srem x y)
  let inexact ← emit (.compareInt .ne r zero)
  let negative ← emit (.compareInt .slt r zero)
  let divisor ← emit (.compareInt .slt y zero)
  let signs ← emit (.binary .xor negative divisor)
  let both ← emit (.binary .and inexact signs)
  let less ← emit (.binary .sub q one)
  emit (.select both less q)

/-- The quotient by a positive divisor, rounded up. -/
def ceilDiv (x y : Value) : Assembling Value := do
  let q ← emit (.binary .sdiv x y)
  let r ← emit (.binary .srem x y)
  let positive ← emit (.compareInt .sgt r zero)
  let more ← emit (.binary .add q one)
  emit (.select positive more q)

/-- The remainder, which is never negative. -/
def mod (x y : Value) : Assembling Value := do
  let r ← emit (.binary .srem x y)
  let size ← match y.literal?.filter (· ≥ 0) with
    | some _ => pure y
    | none => do
      let negative ← emit (.compareInt .slt y zero)
      let opposite ← emit (.binary .sub zero y)
      emit (.select negative opposite y)
  let negative ← emit (.compareInt .slt r zero)
  let more ← emit (.binary .add r size)
  emit (.select negative more r)

variable [Arithmetic]

def indexAdd (l r : Value) : Assembling Value :=
  match l.literal?, r.literal? with
  | some x, some y => return .index (fit (x + y))
  | none, some 0 => return l
  | some 0, none => return r
  | _, _ => emit (.binary .add l r)

def indexMul (l r : Value) : Assembling Value :=
  match l.literal?, r.literal? with
  | some x, some y => return .index (fit (x * y))
  | none, some 1 => return l
  | some 1, none => return r
  | _, _ => emit (.binary .mul l r)

/-- The remainder of a literal by a positive number. -/
def literalMod (x modulus : Int) : Except Fault Int := do
  Arithmetic.nonzero modulus
  return (fit (x.tmod modulus + modulus)).tmod modulus

def indexMod (v : Value) (modulus : Int) : Assembling Value :=
  if modulus = 1 then return zero
  else match v.literal? with
    | some x =>
      match literalMod x modulus with
      | .ok r => return .index r
      | .error fault => throw (.fault fault)
    | none => mod v (.index modulus)

/-! ### Memory -/

/-- A pointer to a field of a buffer. -/
def bufferField (block array : Nat) (field : Int) : Assembling Value :=
  emitTo block (.element .buffer buffersParameter [.index array, .int .i32 field])

/-- A pointer to the phase of a buffer. -/
def phaseField (array : Nat) : Assembling Value := do bufferField (← get).current array 1

def phase (array : Nat) : Assembling Value := do emit (.load .i64 (← phaseField array))

/-- The data of a buffer, which is loaded once. -/
def dataOf (array : Nat) (type : Ty) : Assembling Value := do
  match (← get).data.lookup array with
  | some pointer => return pointer
  | none =>
    let raw ← emitTo entry (.load .bytes (← bufferField entry array 0))
    let pointer ← emitTo entry (.cast .bitcast raw (.pointer type))
    modify fun a => { a with data := (array, pointer) :: a.data }
    return pointer

/-- The elements of an input, which are loaded once. -/
def inputOf (input : Nat) (type : Ty) : Assembling Value := do
  match (← get).inputs.lookup input with
  | some pointer => return pointer
  | none =>
    let slot ← emitTo entry (.element .bytes inputsParameter [.index input])
    let raw ← emitTo entry (.load .bytes slot)
    let pointer ← emitTo entry (.cast .bitcast raw (.pointer type))
    modify fun a => { a with inputs := (input, pointer) :: a.inputs }
    return pointer

def outputOf (type : Ty) : Assembling Value := do
  match (← get).output with
  | some pointer => return pointer
  | none =>
    let pointer ← emitTo entry (.cast .bitcast outputParameter (.pointer type))
    modify fun a => { a with output := some pointer }
    return pointer

/-- A pointer to the element at an offset of a buffer, and the type of the element. -/
def bufferElement (model : Model) (array : Nat) (offset : Value) : Assembling (Value × Ty) := do
  let type ← typeOf (← Lowering.arrayAt model array).type
  let data ← dataOf array type
  return (← emit (.element type data [offset]), type)

def load (model : Model) (array : Nat) (offset : Value) : Assembling Value := do
  let (pointer, type) ← bufferElement model array offset
  emit (.load type pointer)

def store (model : Model) (array : Nat) (offset v : Value) : Assembling Unit := do
  let (pointer, _) ← bufferElement model array offset
  run (.store v pointer)

def loadInput (model : Model) (input : Nat) (offset : Value) : Assembling Value := do
  match model.inputs[input]? with
  | none => throw (.fault .indexOutOfRange)
  | some i =>
    let type ← typeOf i.type
    let data ← inputOf input type
    emit (.load type (← emit (.element type data [offset])))

def storeOutput (model : Model) (offset v : Value) : Assembling Unit := do
  match model.output with
  | none => throw (.fault .indexOutOfRange)
  | some array =>
    let type ← typeOf (← Lowering.arrayAt model array).type
    let data ← outputOf type
    run (.store v (← emit (.element type data [offset])))

/-! ### Elements -/

def convert (v : Value) (source target : ValueType) : Assembling Value := do
  if source = target then return v
  else match source, target with
    | .bool, .real => emit (.cast .sitofp (← emit (.cast .zext v .i64)) .double)
    | .bool, _ => emit (.cast .zext v .i64)
    | .int, .bool => emit (.compareInt .ne v zero)
    | _, .bool => emit (.compareReal .one v (.real .zero))
    | _, .real => emit (.cast .sitofp v .double)
    | _, _ => emit (.cast .fptosi v .i64)

/-- An operation that there is no instruction for. -/
def unsupported (op : Op) : Assembling Value := throw (.unsupported targetName op.name)

def logical (op : Op) (operands : List Value) : Assembling Value :=
  match op, operands with
  | .and, [x, y] => emit (.binary .and x y)
  | .or, [x, y] => emit (.binary .or x y)
  | .not, [x] => emit (.binary .xor x (.bool true))
  | .equal, [x, y] => emit (.compareInt .eq x y)
  | .notEqual, [x, y] => emit (.compareInt .ne x y)
  | _, _ => unsupported op

def intPredicate : Op → IntPredicate
  | .notEqual => .ne
  | .less => .slt
  | .lessEqual => .sle
  | .greater => .sgt
  | .greaterEqual => .sge
  | _ => .eq

def realPredicate : Op → RealPredicate
  | .notEqual => .one
  | .less => .olt
  | .lessEqual => .ole
  | .greater => .ogt
  | .greaterEqual => .oge
  | _ => .oeq

/-- The lesser or the greater of two integers. -/
def extreme (p : IntPredicate) (x y : Value) : Assembling Value := do
  emit (.select (← emit (.compareInt p x y)) x y)

def integer (op : Op) (operands : List Value) : Assembling Value :=
  match op, operands with
  | .negate, [x] => emit (.binary .sub zero x)
  | .add, [x, y] => emit (.binary .add x y)
  | .subtract, [x, y] => emit (.binary .sub x y)
  | .multiply, [x, y] => emit (.binary .mul x y)
  | .divideInteger, [x, y] => floorDiv x y
  | .modulo, [x, y] => mod x y
  | .abs, [x] => do
    let negative ← emit (.compareInt .slt x zero)
    let opposite ← emit (.binary .sub zero x)
    emit (.select negative opposite x)
  | .min, [x, y] => extreme .slt x y
  | .max, [x, y] => extreme .sgt x y
  | _, _ => unsupported op

/-- Whether an operation on a double is a function of the same name. -/
def isIntrinsic : Op → Bool
  | .exp | .exp2 | .log | .log2 | .log10 | .sqrt | .sin | .cos | .ceil | .floor => true
  | _ => false

def fractional (op : Op) (operands : List Value) : Assembling Value :=
  match op, operands with
  | .negate, [x] => emit (.negate x)
  | .add, [x, y] => emit (.binary .fadd x y)
  | .subtract, [x, y] => emit (.binary .fsub x y)
  | .multiply, [x, y] => emit (.binary .fmul x y)
  | .divide, [x, y] => emit (.binary .fdiv x y)
  | .divideInteger, [x, y] => do
    let q ← emit (.binary .fdiv x y)
    emit (.cast .fptosi (← Assembling.call "floor" [q]) .i64)
  | .modulo, [x, y] => do
    let r ← emit (.binary .frem x y)
    let negative ← emit (.compareReal .olt r (.real .zero))
    let size ← Assembling.call "fabs" [y]
    let more ← emit (.binary .fadd r size)
    emit (.select negative more r)
  | .raise, [x, y] => Assembling.call "pow" [x, y]
  | .abs, [x] => Assembling.call "fabs" [x]
  | .min, [x, y] => Assembling.call "minnum" [x, y]
  | .max, [x, y] => Assembling.call "maxnum" [x, y]
  | _, [x] => if isIntrinsic op then Assembling.call op.name [x] else unsupported op
  | _, _ => unsupported op

def primitive (op : Op) (operand : ValueType) (operands : List Value) : Assembling Value :=
  match operand, op.isComparison, operands with
  | .bool, _, _ => logical op operands
  | .int, true, [x, y] => emit (.compareInt (intPredicate op) x y)
  | _, true, [x, y] => emit (.compareReal (realPredicate op) x y)
  | .int, _, _ => integer op operands
  | _, _, _ => fractional op operands

/-! ### Control -/

/-- A new variable, which starts as zero. -/
def temporary (type : ValueType) : Assembling Value := do
  let slot ← emitTo entry (.alloca (← typeOf type))
  let _ ← emitTo entry (.store (constant (Constant.zero type)) slot)
  return slot

/-- The current value of a variable. -/
def use (slot : Value) : Assembling Value :=
  match slot.type with
  | .pointer type => emit (.load type slot)
  | _ => throw (.fault .wrongKind)

def branch (condition : Value) (first second : Assembling Unit) : Assembling Unit := do
  let (thenBlock, thenLabel) ← Assembling.block "then"
  let (elseBlock, elseLabel) ← Assembling.block "else"
  let (mergeBlock, mergeLabel) ← Assembling.block "merge"
  Assembling.leave (.branch condition thenLabel elseLabel)
  Assembling.enter thenBlock
  first
  Assembling.leave (.jump mergeLabel)
  Assembling.enter elseBlock
  second
  Assembling.leave (.jump mergeLabel)
  Assembling.enter mergeBlock

/-- A loop whose iterator is loaded anew at the head of each iteration. -/
def loop (lower upper : Value) (body : Value → Assembling Unit) : Assembling Unit := do
  let slot ← emitTo entry (.alloca .i64)
  let (head, headLabel) ← Assembling.block "loop"
  let (inner, innerLabel) ← Assembling.block "body"
  let (exit, exitLabel) ← Assembling.block "exit"
  run (.store lower slot)
  Assembling.leave (.jump headLabel)
  let iterator ← emitTo head (.load .i64 slot)
  let more ← emitTo head (.compareInt .sle iterator upper)
  Assembling.close head (.branch more innerLabel exitLabel)
  Assembling.enter inner
  body iterator
  run (.store (← emit (.binary .add iterator one)) slot)
  Assembling.leave (.jump headLabel)
  Assembling.enter exit

def target (model : Model) : Target Assembling Value where
  constant c := return constant c
  convert := convert
  index x := return .index x
  indexAdd := indexAdd
  indexMul := indexMul
  indexMod := indexMod
  phase := phase
  period := emit (.load .i64 periodParameter)
  load := load model
  store := store model
  loadInput := loadInput model
  storeOutput := storeOutput model
  primitive op operand _ operands := primitive op operand operands
  temporary := temporary
  assign slot v := run (.store v slot)
  use := use
  branch := branch
  loop lower upper body := loop (.index lower) (.index upper) body
  note message := modify fun a => { a with records := a.records ++ [⟨.debug, message⟩] }

end StreamLoom.Llvm
