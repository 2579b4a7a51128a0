import StreamLoom.Decimal.Shortest
import StreamLoom.Program.Op
import StreamLoom.Source.File

/-!
# Expressions of a program

The bodies and guards of patterns. Every node knows where it was written, except for the inner
applications of an operation with more than two operands, which are not written anywhere.
-/

namespace StreamLoom

inductive Constant where
  | bool (value : Bool)
  | int (value : Int)
  | real (value : Binary64)
deriving DecidableEq, Repr

namespace Constant

def type : Constant → ValueType
  | bool _ => .bool
  | int _ => .int
  | real _ => .real

def text : Constant → String
  | bool value => if value then "true" else "false"
  | int value => toString value
  | real value => value.text

/-- The constant that variables of a type start with. -/
def zero : ValueType → Constant
  | .bool => bool false
  | .int => int 0
  | _ => real .zero

end Constant

/-- The affine value `ratio * x[dim] + offset` of an index variable. -/
structure IteratorValue where
  dim : Nat
  ratio : Int
  offset : Int
deriving DecidableEq, Repr

namespace IteratorValue

def ofDim (dim : Nat) : IteratorValue := ⟨dim, 1, 0⟩

def text (v : IteratorValue) : String :=
  (if v.ratio = 1 then "" else toString v.ratio ++ "*") ++ "#" ++ toString v.dim ++
    (if v.offset > 0 then "+" ++ toString v.offset
     else if v.offset < 0 then toString v.offset else "")

end IteratorValue

inductive Expr where
  | constant (origin : Option Origin) (value : Constant)
  | iterator (origin : Option Origin) (value : IteratorValue)
  /-- An element of an identifier. -/
  | element (origin : Option Origin) (target : Nat) (indices : List Expr)
  /-- An element of an input. -/
  | input (origin : Option Origin) (input : Nat) (indices : List Expr)
  | apply (origin : Option Origin) (op : Op) (operands : List Expr)
  /-- The fold of an operation over a body, as the variable `dim` goes from `lower` to `upper`. -/
  | reduce (origin : Option Origin) (op : Op) (dim : Nat) (lower upper : Int) (body : Expr)

namespace Expr

def origin : Expr → Option Origin
  | constant o _ | iterator o _ | element o _ _ | input o _ _ | apply o _ _ | reduce o _ _ _ _ _ => o

/-- The same expression, written somewhere else. -/
def located (origin : Origin) : Expr → Expr
  | constant _ value => constant origin value
  | iterator _ value => iterator origin value
  | element _ target indices => element origin target indices
  | input _ i indices => input origin i indices
  | apply _ op operands => apply origin op operands
  | reduce _ op dim lower upper body => reduce origin op dim lower upper body

mutual

def text : Expr → String
  | constant _ value => value.text
  | iterator _ value => value.text
  | element _ target indices => "@" ++ toString target ++ indexText (texts indices)
  | input _ i indices => "$" ++ toString i ++ indexText (texts indices)
  | apply _ op operands => "(" ++ " ".intercalate (op.name :: texts operands) ++ ")"
  | reduce _ op dim lower upper body =>
    "(reduce " ++ op.name ++ " [#" ++ toString dim ++ " " ++ toString lower ++ " " ++
      toString upper ++ "] " ++ body.text ++ ")"

def texts : List Expr → List String
  | [] => []
  | e :: rest => e.text :: texts rest

/-- Scalars are written without an index. -/
def indexText (parts : List String) : String :=
  if parts.isEmpty then "" else "[" ++ ",".intercalate parts ++ "]"

end

end Expr

end StreamLoom
