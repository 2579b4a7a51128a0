/-!
# Faults

A fault is a broken contract: an operation was asked for something its operands do not have, such
as a coefficient beyond the last variable or a quotient by zero. Faults are kept apart from the
failures of a compilation, which blame the program being compiled.
-/

namespace StreamLoom

/-- The ways in which an operation can be misused. -/
inductive Fault where
  | broken (contract : String)
  | indexOutOfRange
  | partOutOfRange
  | divideByZero
  | missingPart
  | impossibleCount
  | wrongKind
deriving DecidableEq, Repr

namespace Fault

def message : Fault → String
  | broken contract => contract
  | indexOutOfRange => "no such position"
  | partOutOfRange => "no such part"
  | divideByZero => "division by zero"
  | missingPart => "missing part"
  | impossibleCount => "impossible count"
  | wrongKind => "operand of the wrong kind"

end Fault

/-- Requires a contract of the operands, and reports the given fault when it is broken. -/
def require (contract : Bool) (fault : Fault) : Except Fault Unit :=
  if contract then .ok () else .error fault

@[simp] theorem require_true (fault : Fault) : require true fault = .ok () := rfl

@[simp] theorem require_false (fault : Fault) : require false fault = .error fault := rfl

/-- The element at a position, which has to lie within the list. -/
def elementAt (xs : List α) (i : Int) : Except Fault α :=
  if i < 0 then .error .indexOutOfRange
  else match xs[i.toNat]? with
    | some x => .ok x
    | none => .error .indexOutOfRange

/-- More elements than this do not fit into memory. -/
def countLimit : Int := 0x100000000000

/-- The number of elements of a list, which is neither negative nor beyond all bounds. -/
def countOf (n : Int) : Except Fault Nat :=
  if n < 0 || n > countLimit then .error .impossibleCount else .ok n.toNat

end StreamLoom
