import StreamLoom.Proofs.Affine.Modular
import StreamLoom.Proofs.Lowering.Machine

/-!
# Meaning of computations

What a computation is to give does not depend on how it is lowered. It is defined here by recursion, from
the buffers, the phases and the inputs that it is evaluated with. An application converts its operands to
their common type, also when it is one of those that a reduction consists of.

Indices are computed in the arithmetic of the target, which can be that of words. All that matters of it
is that intermediate results can be kept or not, since that makes no difference to the last one.
-/

namespace StreamLoom

/-- The operation that a reduction repeats converts the value before to the type of its result, whether
this value is the first one or not. -/
theorem Op.operandType_pair {op : Op} {type t : ValueType} (h : op.operandType [t, t] = type)
    {s : ValueType} (hs : s = t ∨ s = type) : op.operandType [s, t] = type := by
  rcases hs with rfl | rfl
  · exact h
  · have hsame : checkedJoin [t, t] = t := by cases t <;> rfl
    unfold operandType at h ⊢
    cases hrule : op.rule <;> simp only [hrule] at h ⊢
    all_goals first | exact h | (rw [← h, hsame, hsame])

/-- A reduction whose operation suits two values of its body has this type, unless it divides reals to an
integer. -/
theorem Op.operandType_of_resultType {op : Op} {type t : ValueType} (h : op.resultType [t, t] = .ok type)
    (hrule : op.rule ≠ .comparison) (ht : t ≠ .unknown) :
    op.operandType [t, t] = type ∨ op.rule = .integral ∧ t = .real := by
  cases op <;> cases t <;> first | (cases h; decide) | contradiction

example : Op.divideInteger.resultType [.real, .real] = .ok .int ∧
    Op.divideInteger.operandType [.real, .real] = .real := ⟨rfl, rfl⟩

namespace Computation

variable [Arithmetic]

mutual

/-- Every reduction has the type that its operation converts two values of the body to, and its bounds are
numbers of the arithmetic. -/
def Uniform : Computation → Prop
  | .constant _ | .iterator _ | .input .. | .read .. => True
  | .apply _ _ operands => UniformAll operands
  | .reduce op type _ lower upper body =>
    op.operandType [body.type, body.type] = type ∧ fit lower = lower ∧ fit upper = upper ∧ body.Uniform

def UniformAll : List Computation → Prop
  | [] => True
  | c :: rest => c.Uniform ∧ UniformAll rest

end

end Computation

namespace Lowering

variable [Arithmetic] {V : Type}

namespace Interpretation

variable (I : Interpretation V)

/-- Executes what is emitted, with indices in any arithmetic. -/
def executing : Target (Running V) V :=
  { I.target with
    index := fun x => pure (I.ofInt (fit x))
    indexAdd := fun a b => pure (I.ofInt (fit (I.toInt a + I.toInt b)))
    indexMul := fun a b => pure (I.ofInt (fit (I.toInt a * I.toInt b))) }

/-- An operation on operands with their types, which are converted to a common one. -/
def applied (op : Op) (type : ValueType) (operands : List (V × ValueType)) : Except Failure V :=
  let common := op.operandType (operands.map (·.2))
  I.primitive op common type (operands.map fun (v, t) => I.convert v t common)

end Interpretation

omit [Arithmetic] in
theorem executing_exact (I : Interpretation V) : @Interpretation.executing .exact V I = I.target := rfl

structure Memory (V : Type) where
  buffers : Nat → Int → V
  phases : Nat → Int
  period : Int
  steady : Bool

def Machine.memory (σ : Machine V) : Memory V := ⟨σ.buffers, σ.phases, σ.period, σ.steady⟩

namespace Memory

variable (μ : Memory V) (model : Model)

/-- The slot of an element, in a buffer that is turned by its phase. -/
def slot (number : Nat) (index : List Int) : Except Failure Int :=
  if index.isEmpty then return 0
  else do
    let array ← arrayAt model number
    return (layoutOf array).flatten index (if array.buffer.period > 0 then μ.phases number else 0)

/-- The value of an index variable among all periods. -/
def absolute (st : Statement) (env : List Int) (dim : Nat) : Except Failure Int :=
  match env[dim]? with
  | none => throw (.fault .indexOutOfRange)
  | some x =>
    if μ.steady && st.flow == some dim then do
      let array ← arrayAt model st.array
      return x + μ.period * array.buffer.period
    else return x

/-- The element of a finite input, in row-major order. -/
def inputAt (I : Interpretation V) (number : Nat) (index : List Int) : Except Failure V :=
  match model.inputs[number]? with
  | none => throw (.fault .indexOutOfRange)
  | some i =>
    let strides := (rowMajor i.extents (List.range i.extents.length)).map (·.2)
    return I.input number μ.steady μ.period (fit (Arithmetic.dot index strides))

end Memory

section

variable (I : Interpretation V) (model : Model) (μ : Memory V) (st : Statement)

mutual

/-- The value of a computation, for some values of the index variables and of the reduction variables. -/
def denote : Computation → List Int → Except Failure V
  | .constant c, _ => return I.constant c
  | .iterator v, env => do
    let x ← μ.absolute model st env v.dim
    return I.ofInt (fit (v.ratio * x + v.offset))
  | .input number _ access, env => μ.inputAt model I number (access.pattern.map (·.eval env))
  | .read number _ access, env => do
    let slot ← μ.slot model number (access.pattern.map (·.eval env))
    return μ.buffers number slot
  | .apply .conditional type [condition, first, second], env => do
    let common := Op.conditional.operandType [condition.type, first.type, second.type]
    if I.truth (← denote condition env) then
      return I.convert (I.convert (← denote first env) first.type common) common type
    else return I.convert (I.convert (← denote second env) second.type common) common type
  | .apply op type operands, env => do I.applied op type (← denoteAll operands env)
  | .reduce op type _ lower upper body, env => do
    let first ← denote body (env ++ [lower])
    let (last, t) ← (List.range (upper - lower).toNat).foldlM (fun (sum, t) n => do
      let next ← denote body (env ++ [lower + 1 + n])
      return (← I.applied op type [(sum, t), (next, body.type)], type)) (first, body.type)
    return I.convert last t type

def denoteAll : List Computation → List Int → Except Failure (List (V × ValueType))
  | [], _ => return []
  | c :: rest, env => do
    let v ← denote c env
    return (v, c.type) :: (← denoteAll rest env)

end

attribute [simp] denote denoteAll

/-- The value of a statement at a point. Streams are copied from the window of their input. -/
def denoteStatement (array : DataArray) (x : List Int) : Except Failure V :=
  match st.computation, array.input.isSome with
  | .input number _ _, true =>
    let strides := windowStrides array
    let start := match array.flow with
      | some flow => if μ.steady then fit (-array.buffer.offset * strides.getD flow 0) else 0
      | none => 0
    return I.input number μ.steady μ.period (fit (start + Arithmetic.dot x strides))
  | computation, _ => denote I model μ st computation x

end

end Lowering

end StreamLoom
