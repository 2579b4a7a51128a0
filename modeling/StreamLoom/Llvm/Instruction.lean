import StreamLoom.Program.Expr

/-!
# LLVM instructions

The instructions of the intermediate representation that programs are lowered to. Results are
identified by the order in which their instructions were created; the numbers under which they are
written are given when a function is printed.
-/

namespace StreamLoom.Llvm

inductive Ty where
  | void
  | i1
  | i8
  | i32
  | i64
  | double
  /-- The data and the phase of a buffer. -/
  | buffer
  | pointer (target : Ty)
deriving DecidableEq, Repr

namespace Ty

def text : Ty → String
  | void => "void"
  | i1 => "i1"
  | i8 => "i8"
  | i32 => "i32"
  | i64 => "i64"
  | double => "double"
  | buffer => "%buffer"
  | pointer target => target.text ++ "*"

/-- A pointer to bytes, as which inputs, output and buffers are passed. -/
def bytes : Ty := pointer i8

/-- The types of the fields of a buffer. -/
def bufferFields : List Ty := [bytes, i64]

end Ty

inductive Value where
  | int (type : Ty) (value : Int)
  | bool (value : Bool)
  | real (value : Binary64)
  | parameter (name : String) (type : Ty)
  /-- The result of an instruction. -/
  | result (id : Nat) (type : Ty)
deriving DecidableEq, Repr

namespace Value

def type : Value → Ty
  | int type _ => type
  | bool _ => .i1
  | real _ => .double
  | parameter _ type => type
  | result _ type => type

def index (x : Int) : Value := int .i64 x

/-- The value of a literal index. -/
def literal? : Value → Option Int
  | int .i64 x => some x
  | _ => none

end Value

inductive BinaryOp where
  | add | sub | mul | sdiv | srem | and | or | xor
  | fadd | fsub | fmul | fdiv | frem
deriving DecidableEq, Repr

/-- A comparison of signed integers. -/
inductive IntPredicate where
  | eq | ne | slt | sle | sgt | sge
deriving DecidableEq, Repr

/-- A comparison of doubles, which fails when one of them is not a number. -/
inductive RealPredicate where
  | oeq | one | olt | ole | ogt | oge
deriving DecidableEq, Repr

inductive CastOp where
  | zext | sitofp | fptosi | bitcast
deriving DecidableEq, Repr

inductive Instruction where
  | alloca (type : Ty)
  | load (type : Ty) (pointer : Value)
  | store (value pointer : Value)
  /-- A pointer to an element, or to a field of one. -/
  | element (type : Ty) (pointer : Value) (indices : List Value)
  | binary (op : BinaryOp) (x y : Value)
  | negate (x : Value)
  | compareInt (p : IntPredicate) (x y : Value)
  | compareReal (p : RealPredicate) (x y : Value)
  | select (condition x y : Value)
  | cast (op : CastOp) (x : Value) (type : Ty)
  /-- The call of a function on doubles. -/
  | call (function : String) (arguments : List Value)
deriving DecidableEq, Repr

/-- What a pointer to an element, or to a field of it, points to. -/
def elementTarget (type : Ty) : List Value → Ty
  | [_, .int _ field] => if type = .buffer then Ty.bufferFields.getD field.toNat .i8 else type
  | _ => type

/-- The type of the result. -/
def Instruction.type : Instruction → Ty
  | alloca type => .pointer type
  | load type _ => type
  | store .. => .void
  | element type _ indices => .pointer (elementTarget type indices)
  | binary _ x _ | negate x | select _ x _ => x.type
  | compareInt .. | compareReal .. => .i1
  | cast _ _ type => type
  | call .. => .double

inductive Terminator where
  | jump (label : String)
  | branch (condition : Value) (first second : String)
  | ret
deriving DecidableEq, Repr

/-- Instructions with the identifiers of their results, and what ends them. -/
structure Block where
  label : String
  code : Array (Nat × Instruction) := #[]
  terminator : Option Terminator := none

structure Function where
  name : String
  blocks : Array Block

inductive Item where
  | define (function : Function)
  /-- A function on doubles which is defined elsewhere. -/
  | declare (name : String) (arity : Nat)

structure Module where
  /-- The number of elements of each buffer. -/
  lengths : List Int
  items : List Item

/-! ### Parameters -/

def inputsParameter : Value := .parameter "inputs" (.pointer .bytes)

def outputParameter : Value := .parameter "output" .bytes

def buffersParameter : Value := .parameter "buffers" (.pointer .buffer)

def periodParameter : Value := .parameter "period" (.pointer .i64)

/-- The parameters of every function that is defined. -/
def parameters : List Value :=
  [inputsParameter, outputParameter, buffersParameter, periodParameter]

end StreamLoom.Llvm
