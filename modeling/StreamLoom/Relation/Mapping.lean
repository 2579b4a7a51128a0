import StreamLoom.Relation.Basic

/-!
# Affine functions

Most relations of a program take each point to a single one, by an affine function. A mapping is
that function, recovered from the equalities of the relation. Where there is no such function, for
example because a reduction reads many elements, the slope still tells how fast one coordinate moves
with another.
-/

namespace StreamLoom

/-- The function that takes a point of `inputs` coordinates to the values of affine rows. -/
structure Mapping where
  inputs : Nat
  rows : List Affine
deriving DecidableEq, Repr

/-- Raised when a relation is not an affine function, with the relation as it is written. -/
structure InvalidMap where
  relation : String
  reason : String
deriving DecidableEq, Repr

def InvalidMap.message (e : InvalidMap) : String :=
  "invalid map " ++ e.relation ++ " (" ++ e.reason ++ ")"

namespace Mapping

/-- The multiple of an input coordinate in an output coordinate. -/
def coefficient (g : Mapping) (input output : Nat) : Int :=
  match g.rows[output]? with
  | some row => row.coeff input
  | none => 0

def eval [Arithmetic] (g : Mapping) (point : List Int) : List Int :=
  g.rows.map (·.eval point)

end Mapping

namespace Relation

variable [Arithmetic]

/-- The output coordinates that an equality mentions and that have not been solved. -/
def openOutputs (m : Relation) (c : Constraint) (solved : List (Option Affine)) : List Nat :=
  if c.equality then
    (List.range m.outputs).filter fun o =>
      c.coeff (m.inputs + o) != 0 && (solved.getD o none).isNone
  else []

/-- The row of an output coordinate, the only one that an equality leaves open. -/
def solveRow (m : Relation) (c : Constraint) (solved : List (Option Affine)) (target : Nat) :
    Affine :=
  let start : Affine := ⟨c.coeffs.take m.inputs, c.const⟩
  let sum := (List.range m.outputs).foldl (fun row o =>
    let b := c.coeff (m.inputs + o)
    match solved.getD o none with
    | some known => if o ≠ target ∧ b ≠ 0 then row.add (known.scale b) else row
    | none => row) start
  sum.scale (fit (-c.coeff (m.inputs + target)))

/-- Solves an equality that leaves a single output open, with a coefficient of one or minus one. -/
def solveStep (m : Relation) (solved : List (Option Affine)) (c : Constraint) :
    List (Option Affine) :=
  match m.openOutputs c solved with
  | [target] =>
    if Arithmetic.abs (c.coeff (m.inputs + target)) = 1 then
      solved.set target (some (m.solveRow c solved target))
    else solved
  | _ => solved

/-- Goes through the constraints as often as the count says. Each round that makes progress solves
an output, so that as many rounds as there are outputs suffice. -/
def solveRounds (m : Relation) : Nat → List (Option Affine) → List (Option Affine)
  | 0, solved => solved
  | rounds + 1, solved => m.solveRounds rounds (m.cons.foldl m.solveStep solved)

/-- The affine function that a relation embodies. Inequalities only restrict where it applies. -/
def mapping (m : Relation) : Except InvalidMap Mapping :=
  let s := m.simplify
  if s.locals > 0 then .error ⟨m.text, "existentially quantified variables"⟩
  else
    let solved := s.solveRounds m.outputs (List.replicate m.outputs none)
    match solved.findIdx? (·.isNone) with
    | some o => .error ⟨m.text, "output dimension " ++ toString o ++ " is undefined"⟩
    | none => .ok ⟨m.inputs, solved.filterMap id⟩

/-- The multiple that a constraint suggests for an input coordinate in an output coordinate. -/
def candidate (c : Constraint) (input output : Nat) : Option Int :=
  let cy := c.coeff output
  let cx := c.coeff input
  if cy = 0 ∨ cx.tmod cy ≠ 0 then none else some (Arithmetic.truncDiv (fit (-cx)) cy)

/-- Whether the difference of an output coordinate and a multiple of an input coordinate is
bounded. -/
def follows (m : Relation) (input output : Nat) (a : Int) : Bool :=
  match m.bound ((Affine.var m.dims output).sub ((Affine.var m.dims input).scale a)) with
  | some interval => interval.isFinite
  | none => false

/-- The multiplier of an input coordinate in an output coordinate, up to a bounded difference. -/
def slope (m : Relation) (input output : Nat) : Option Int :=
  m.simplify.cons.findSome? fun c =>
    (candidate c input (m.inputs + output)).filter (m.follows input (m.inputs + output))

end Relation

end StreamLoom
