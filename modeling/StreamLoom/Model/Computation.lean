import StreamLoom.Program.Expr
import StreamLoom.Relation.Mapping

/-!
# Computations

What a statement computes at each point of its domain. In contrast to the expressions of a program,
every application knows the type of its result, and every element that is read is given by an affine
function of the point and of the enclosing reduction variables.
-/

namespace StreamLoom

/-- The elements of an array or an input that a computation refers to. -/
structure Access where
  /-- Relates the points of the statement to the elements which they refer to. -/
  relation : Relation
  /-- The index, over the dimensions of the statement and then the reduction variables. -/
  pattern : List Affine

inductive Computation where
  | constant (value : Constant)
  | iterator (value : IteratorValue)
  | apply (op : Op) (type : ValueType) (operands : List Computation)
  /-- An element of a finite input. -/
  | input (input : Nat) (type : ValueType) (access : Access)
  /-- An element of an array. -/
  | read (array : Nat) (type : ValueType) (access : Access)
  /-- The fold of an operation over the body, for each value of a reduction variable. Reduction
  variables are numbered after the dimensions of the statement. -/
  | reduce (op : Op) (type : ValueType) (dim : Nat) (lower upper : Int) (body : Computation)

/-- The elements of an array that a statement reads. -/
structure Read where
  array : Nat
  relation : Relation

namespace Computation

def type : Computation → ValueType
  | constant value => value.type
  | iterator _ => .int
  | apply _ type _ | input _ type _ | read _ type _ | reduce _ type _ _ _ _ => type

mutual

/-- Everything that is read, in the order in which it is written. -/
def reads : Computation → List Read
  | constant _ | iterator _ | input .. => []
  | apply _ _ operands => readsOf operands
  | read array _ access => [⟨array, access.relation⟩]
  | reduce _ _ _ _ _ body => body.reads

def readsOf : List Computation → List Read
  | [] => []
  | c :: rest => c.reads ++ readsOf rest

end

variable [Arithmetic]

/-- The index of an access, or the whole relation when a point refers to several elements. -/
def indexText (m : Relation) : String :=
  match m.mapping with
  | .ok mapping =>
    let names := Text.numbered "#" m.inputs
    "[" ++ ",".intercalate (mapping.rows.map (·.textWith names)) ++ "]"
  | .error _ => m.text

mutual

def text : Computation → String
  | constant value => value.text
  | iterator value => value.text
  | apply op _ operands => "(" ++ op.name ++ textOf operands ++ ")"
  | input i _ access => "input#" ++ toString i ++ indexText access.relation
  | read _ _ access => access.relation.target ++ indexText access.relation
  | reduce op _ dim lower upper body =>
    "(reduce " ++ op.name ++ " [#" ++ toString dim ++ " " ++ toString lower ++ " " ++
      toString upper ++ "] " ++ body.text ++ ")"

def textOf : List Computation → String
  | [] => ""
  | c :: rest => " " ++ c.text ++ textOf rest

end

end Computation

end StreamLoom
