import StreamLoom.Arithmetic.Division

/-!
# Expressions of loop nests

Integer expressions over the iterators of a loop nest. They are what the bounds of loops, the
conditions and the indices of statements consist of.
-/

namespace StreamLoom.Nest

inductive Operation where
  | add
  | sub
  | mul
  /-- The quotient rounded down. -/
  | floorDiv
  /-- The quotient rounded up. -/
  | ceilDiv
  /-- The remainder, which is never negative. -/
  | mod
deriving DecidableEq, Repr

/-- The least or the greatest of several values. -/
inductive Extreme where
  | min
  | max
deriving DecidableEq, Repr

inductive Expr where
  | name (name : String)
  | int (value : Int)
  | binary (op : Operation) (left right : Expr)
  | extreme (op : Extreme) (elements : List Expr)

/-- The values of iterators and assigned variables, innermost first. -/
abbrev Env := List (String × Int)

def Operation.eval [Arithmetic] (l r : Int) : Operation → Except Fault Int
  | add => .ok (fit (l + r))
  | sub => .ok (fit (l - r))
  | mul => .ok (fit (l * r))
  | floorDiv => Arithmetic.floorDiv? l r
  | ceilDiv => Arithmetic.ceilDiv? l r
  | mod => Arithmetic.residue? l r

namespace Extreme

def pick : Extreme → Int → Int → Int
  | min, a, b => Min.min a b
  | max, a, b => Max.max a b

/-- The extreme of some values, of which there has to be one. -/
def eval (op : Extreme) : List Int → Except Fault Int
  | [] => .error .indexOutOfRange
  | x :: rest => .ok (rest.foldl op.pick x)

def text : Extreme → String
  | min => "min"
  | max => "max"

end Extreme

namespace Expr

variable [Arithmetic]

mutual

/-- The value of an expression, whose variables have to be bound. -/
def eval (env : Env) : Expr → Except Fault Int
  | name n =>
    match env.lookup n with
    | some value => .ok value
    | none => .error (.broken ("unbound variable " ++ n))
  | int value => .ok value
  | binary op left right => do
    let l ← left.eval env
    let r ← right.eval env
    op.eval l r
  | extreme op elements => do op.eval (← evalAll env elements)

def evalAll (env : Env) : List Expr → Except Fault (List Int)
  | [] => .ok []
  | e :: rest => do
    let value ← e.eval env
    return value :: (← evalAll env rest)

end

end Expr

namespace Expr

/-- Quotients are written as calls, and all other operations between their operands. -/
def binaryText (left right : String) : Operation → String
  | .add => "(" ++ left ++ " + " ++ right ++ ")"
  | .sub => "(" ++ left ++ " - " ++ right ++ ")"
  | .mul => "(" ++ left ++ " * " ++ right ++ ")"
  | .mod => "(" ++ left ++ " % " ++ right ++ ")"
  | .floorDiv => "floord(" ++ left ++ ", " ++ right ++ ")"
  | .ceilDiv => "ceild(" ++ left ++ ", " ++ right ++ ")"

mutual

def text : Expr → String
  | name n => n
  | int value => toString value
  | binary op left right => binaryText left.text right.text op
  | extreme op elements => op.text ++ "(" ++ ", ".intercalate (textAll elements) ++ ")"

def textAll : List Expr → List String
  | [] => []
  | e :: rest => e.text :: textAll rest

end

end Expr

end StreamLoom.Nest
