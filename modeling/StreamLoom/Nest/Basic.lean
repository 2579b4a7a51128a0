import StreamLoom.Nest.Expr

/-!
# Loop nests

A loop nest executes the points of statements in the order of a schedule. It consists of loops,
conditions and assignments around the statements.
-/

namespace StreamLoom.Nest

inductive Comparison where
  | le
  | ge
  | eq
deriving DecidableEq, Repr

namespace Comparison

def text : Comparison → String
  | le => "<="
  | ge => ">="
  | eq => "=="

def holds : Comparison → Int → Int → Bool
  | le, l, r => l ≤ r
  | ge, l, r => l ≥ r
  | eq, l, r => l == r

end Comparison

structure Condition where
  left : Expr
  op : Comparison
  right : Expr

namespace Condition

def text (c : Condition) : String := c.left.text ++ " " ++ c.op.text ++ " " ++ c.right.text

def holds [Arithmetic] (env : Env) (c : Condition) : Except Fault Bool := do
  let l ← c.left.eval env
  let r ← c.right.eval env
  return c.op.holds l r

/-- Whether all conditions hold. Those after the first that fails are not looked at. -/
def allHold [Arithmetic] (env : Env) : List Condition → Except Fault Bool
  | [] => .ok true
  | c :: rest => do if ← c.holds env then allHold env rest else return false

end Condition

inductive Node where
  | block (body : List Node)
  /-- A loop whose bounds are both included. -/
  | loop (iterator : String) (lower upper : Expr) (body : List Node)
  /-- Executes the body when every condition holds. -/
  | guarded (conditions : List Condition) (body : List Node)
  /-- Binds a variable in the rest of the enclosing block. -/
  | assign (name : String) (value : Expr)
  /-- Executes a point of a statement. The index is that of the point after the period, which counts
  from zero. -/
  | visit (statement : Nat) (name : String) (index : List Expr)

/-- The loop nests of both phases of a schedule. -/
structure Nests where
  /-- Executed once. -/
  prologue : List Node := []
  /-- Executed once per period. -/
  steady : List Node := []

namespace Node

def indented (depth : Nat) (line : String) : String :=
  String.join (List.replicate depth "  ") ++ line ++ "\n"

mutual

def textAt (depth : Nat) : Node → String
  | block body => textsAt depth body
  | loop iterator lower upper body =>
    indented depth ("for " ++ iterator ++ " = " ++ lower.text ++ " .. " ++ upper.text) ++
      textsAt (depth + 1) body
  | guarded conditions body =>
    indented depth ("if " ++ " && ".intercalate (conditions.map (·.text))) ++
      textsAt (depth + 1) body
  | assign name value => indented depth (name ++ " = " ++ value.text)
  | visit _ name index =>
    indented depth (name ++ "(" ++ ", ".intercalate (index.map (·.text)) ++ ")")

def textsAt (depth : Nat) : List Node → String
  | [] => ""
  | n :: rest => n.textAt depth ++ textsAt depth rest

end

/-- The lines of a loop nest, each two blanks deeper than what encloses it. -/
def text (body : List Node) : String := textsAt 0 body

end Node

end StreamLoom.Nest
