import StreamLoom.Failure
import StreamLoom.PointSet.Basic
import StreamLoom.Program.Expr

/-!
# Guards

The elements that a pattern defines are those which satisfy its guard. A guard has to be a
conjunction of affine conditions on the index variables, so that these elements form a set.
-/

namespace StreamLoom

/-- A program that has no model, because of something which is written at some place. -/
def Failure.unmodelledAt (origin : Option Origin) (message : String) : Failure :=
  .unmodelled message (origin.map (·.error message))

namespace Expr

variable [Arithmetic]

/-- The affine form of an operation on affine forms. A product is affine when one factor is
constant. -/
def combine : Op → List Affine → Option Affine
  | .negate, [a] => some a.neg
  | .add, [a, b] => some (a.add b)
  | .subtract, [a, b] => some (a.sub b)
  | .multiply, [a, b] =>
    if a.isConstant then some (b.scale a.const)
    else if b.isConstant then some (a.scale b.const)
    else none
  | _, _ => none

mutual

/-- The affine form of an expression over the first `n` variables. -/
def affine? (n : Nat) : Expr → Option Affine
  | constant _ (.int value) => some (.constant n value)
  | iterator _ v => if v.dim < n then some (((Affine.var n v.dim).scale v.ratio).plus v.offset) else none
  | apply _ op operands => (affines? n operands).bind (combine op)
  | _ => none

def affines? (n : Nat) : List Expr → Option (List Affine)
  | [] => some []
  | e :: rest => do return (← e.affine? n) :: (← affines? n rest)

end

end Expr

namespace Guard

/-- The comparison that holds when another one does not. -/
def complement : Op → Op
  | .equal => .notEqual
  | .notEqual => .equal
  | .less => .greaterEqual
  | .lessEqual => .greater
  | .greater => .lessEqual
  | .greaterEqual => .less
  | op => op

variable [Arithmetic]

/-- The constraint of a comparison; those that differ do not form a convex set. -/
def comparison (op : Op) (l r : Affine) : Option Constraint :=
  match op with
  | .equal => some (.equal l r)
  | .less => some (.lt l r)
  | .lessEqual => some (.le l r)
  | .greater => some (.lt r l)
  | .greaterEqual => some (.le r l)
  | _ => none

/-- The constraints of a comparison between expressions over `n` variables, or of its complement. -/
def comparing (n : Nat) (negated : Bool) (origin : Option Origin) (op : Op) (operands : List Expr) :
    Except Failure (List Constraint) :=
  match Expr.affines? n operands with
  | some [l, r] =>
    match comparison (if negated then complement op else op) l r with
    | some c => .ok [c]
    | none => .error (.unmodelledAt origin "guard has non-convex disequality")
  | _ => .error (.unmodelledAt origin "guard compares non-affine expressions")

/-- The constraints of a guard over `n` variables, or of its complement. Negation is pushed inwards,
so that the complement of a disjunction is a conjunction. -/
def constraints (n : Nat) (negated : Bool) : Expr → Except Failure (List Constraint)
  | .constant _ (.bool value) => .ok (if value != negated then [] else [.never n])
  | .apply _ .not [e] => constraints n (!negated) e
  | .apply origin .and [a, b] =>
    if negated then .error (.unmodelledAt origin "guard is not a conjunction of affine conditions")
    else do return (← constraints n negated a) ++ (← constraints n negated b)
  | .apply origin .or [a, b] =>
    if negated then do return (← constraints n negated a) ++ (← constraints n negated b)
    else .error (.unmodelledAt origin "guard is not a conjunction of affine conditions")
  | .apply origin op operands =>
    if op.isComparison then comparing n negated origin op operands
    else .error (.unmodelledAt origin "guard is not a conjunction of affine conditions")
  | e => .error (.unmodelledAt e.origin "guard is not a conjunction of affine conditions")

end Guard

end StreamLoom
