import StreamLoom.Fault
import StreamLoom.Program.ValueType

/-!
# Primitive operations

The operations that expressions are built with. Each has a name, and most have a symbol as well;
either can be used. A rule determines the type of the result from those of the operands.
-/

namespace StreamLoom

inductive Op where
  | negate | add | subtract | multiply | divide | divideInteger | modulo | raise
  | equal | notEqual | less | lessEqual | greater | greaterEqual
  | and | or | not | conditional
  | exp | exp2 | log | log2 | log10 | sqrt | sin | cos | tan | asin | acos | atan
  | ceil | floor | abs | min | max
deriving DecidableEq, Repr

/-- How the type of a result follows from the types of the operands. -/
inductive TypeRule where
  /-- The join of the operands, which are numeric. -/
  | numeric
  /-- Always real, of numeric operands. -/
  | fractional
  /-- Always an integer, of numeric operands. -/
  | integral
  /-- A truth value, of operands which have a join. -/
  | comparison
  /-- A truth value, of truth values. -/
  | logical
  /-- The join of all operands but the first, which is a truth value. -/
  | select
deriving DecidableEq, Repr

namespace TypeRule

def all : List TypeRule := [numeric, fractional, integral, comparison, logical, select]

end TypeRule

/-- What is known of a primitive operation. -/
structure Operator where
  name : String
  symbol : Option String
  arity : Nat
  rule : TypeRule
deriving DecidableEq, Repr

namespace Op

/-- Every operation, in the order of their numbers. -/
def all : List Op :=
  [negate, add, subtract, multiply, divide, divideInteger, modulo, raise,
    equal, notEqual, less, lessEqual, greater, greaterEqual, and, or, not, conditional,
    exp, exp2, log, log2, log10, sqrt, sin, cos, tan, asin, acos, atan, ceil, floor, abs, min, max]

def operator : Op → Operator
  | negate => ⟨"negate", none, 1, .numeric⟩
  | add => ⟨"add", some "+", 2, .numeric⟩
  | subtract => ⟨"subtract", some "-", 2, .numeric⟩
  | multiply => ⟨"multiply", some "*", 2, .numeric⟩
  | divide => ⟨"divide", some "/", 2, .fractional⟩
  | divideInteger => ⟨"divide_integer", some "div", 2, .integral⟩
  | modulo => ⟨"modulo", some "%", 2, .numeric⟩
  | raise => ⟨"raise", some "^", 2, .fractional⟩
  | equal => ⟨"compare_eq", some "==", 2, .comparison⟩
  | notEqual => ⟨"compare_neq", some "!=", 2, .comparison⟩
  | less => ⟨"compare_l", some "<", 2, .comparison⟩
  | lessEqual => ⟨"compare_leq", some "<=", 2, .comparison⟩
  | greater => ⟨"compare_g", some ">", 2, .comparison⟩
  | greaterEqual => ⟨"compare_geq", some ">=", 2, .comparison⟩
  | and => ⟨"logic_and", some "and", 2, .logical⟩
  | or => ⟨"logic_or", some "or", 2, .logical⟩
  | not => ⟨"logic_not", some "not", 1, .logical⟩
  | conditional => ⟨"conditional", some "if", 3, .select⟩
  | exp => ⟨"exp", none, 1, .fractional⟩
  | exp2 => ⟨"exp2", none, 1, .fractional⟩
  | log => ⟨"log", none, 1, .fractional⟩
  | log2 => ⟨"log2", none, 1, .fractional⟩
  | log10 => ⟨"log10", none, 1, .fractional⟩
  | sqrt => ⟨"sqrt", none, 1, .fractional⟩
  | sin => ⟨"sin", none, 1, .fractional⟩
  | cos => ⟨"cos", none, 1, .fractional⟩
  | tan => ⟨"tan", none, 1, .fractional⟩
  | asin => ⟨"asin", none, 1, .fractional⟩
  | acos => ⟨"acos", none, 1, .fractional⟩
  | atan => ⟨"atan", none, 1, .fractional⟩
  | ceil => ⟨"ceil", none, 1, .fractional⟩
  | floor => ⟨"floor", none, 1, .fractional⟩
  | abs => ⟨"abs", none, 1, .numeric⟩
  | min => ⟨"min", none, 2, .numeric⟩
  | max => ⟨"max", none, 2, .numeric⟩

def name (op : Op) : String := op.operator.name

def arity (op : Op) : Nat := op.operator.arity

def rule (op : Op) : TypeRule := op.operator.rule

/-- The operation with a given name or symbol. -/
def find? (word : String) : Option Op :=
  all.find? fun op => op.name == word || op.operator.symbol == some word

def isComparison (op : Op) : Bool := op.rule == .comparison

/-! ### Types -/

/-- The join of the operands, which may have to be numeric. -/
def joinOperands (op : Op) (result : ValueType) : List ValueType → Except TypeMismatch ValueType
  | [] => .ok result
  | t :: rest => do
    let joined ← result.join t
    if op.rule ≠ .select ∧ op.rule ≠ .comparison ∧ t = .bool then .error (.notNumeric op.name t)
    else op.joinOperands joined rest

/-- The type of a result. Unknown operands are ignored. -/
def resultType (op : Op) (operands : List ValueType) : Except TypeMismatch ValueType :=
  if operands.length ≠ op.arity then .error (.arity op.name op.arity operands.length)
  else match op.rule with
    | .logical =>
      match operands.find? fun t => t != .unknown && t != .bool with
      | some t => .error (.notBoolean op.name t)
      | none => .ok .bool
    | .select =>
      match operands with
      | condition :: arms =>
        if condition ≠ .unknown ∧ condition ≠ .bool then .error (.notCondition op.name condition)
        else op.joinOperands .unknown arms
      | [] => .ok .unknown
    | .numeric => op.joinOperands .unknown operands
    | .fractional => (op.joinOperands .unknown operands).map fun _ => .real
    | .integral => (op.joinOperands .unknown operands).map fun _ => .int
    | .comparison => (op.joinOperands .unknown operands).map fun _ => .bool

/-- The join of types which have been checked; where there is none, it starts again. -/
def checkedJoin (types : List ValueType) : ValueType :=
  types.foldl (fun a b => (a.join b).toOption.getD .unknown) .unknown

/-- The type that operands are converted to before an operation is applied. For a conditional this
is the type of its arms. -/
def operandType (op : Op) (operands : List ValueType) : ValueType :=
  match op.rule with
  | .logical => .bool
  | .fractional => .real
  | .select => checkedJoin operands.tail
  | _ => checkedJoin operands

def operandType? (op : Op) (operands : List ValueType) : Except Fault ValueType := do
  require (op.rule != .select || !operands.isEmpty) .partOutOfRange
  return op.operandType operands

end Op

end StreamLoom
