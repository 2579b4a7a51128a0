import StreamLoom.Affine.Constraint
import StreamLoom.Arithmetic.Interval

/-!
# Systems of constraints

A system is a conjunction of constraints in lowest terms, with at most one equality and one
inequality per direction. Variables are eliminated from it by substitution where an equality
allows, and otherwise by pairing every lower bound with every upper bound. The latter computes the
rational shadow, so that a projection may contain integer points which the system does not project
onto, but never misses one.

A system without solutions is represented by `none` wherever that has been noticed.
-/

namespace StreamLoom

/-- The constraints of a system, in the order in which their directions first arose. -/
abbrev System := List Constraint

namespace System

variable [Arithmetic]

/-! ### Lowest terms -/

/-- Every constraint in lowest terms, without those which always hold. -/
def properRows : List Constraint → Option System
  | [] => some []
  | c :: rest =>
    match c.reduce with
    | .never => none
    | .always => properRows rest
    | .proper row => (properRows rest).map (row :: ·)

/-- Adds a row, keeping only the tightest inequality of its direction. -/
def insert (row : Constraint) : System → Option System
  | [] => some [row]
  | r :: rest =>
    if r.equality = row.equality ∧ r.coeffs = row.coeffs then
      if row.equality then
        if r.const = row.const then some (r :: rest) else none
      else
        some ((if row.const < r.const then row else r) :: rest)
    else
      (insert row rest).map (r :: ·)

/-- The inequality of a direction. -/
def bounding? (rows : System) (direction : List Int) : Option Constraint :=
  rows.find? fun r => !r.equality && r.coeffs == direction

/-- Compares the inequality of a direction with the opposing one. When they leave no slack between
them they are replaced by an equality, and when they leave less there is no solution. -/
def close (rows : System) (direction : List Int) : Option System :=
  let opposite := direction.map fun x => fit (-x)
  match rows.bounding? direction, rows.bounding? opposite with
  | some c, some d =>
    let slack := fit (c.const + d.const)
    if slack < 0 then none
    else if slack = 0 then
      let tied := Constraint.zero c.form
      let row := match tied.reduce with
        | .proper row => row
        | _ => tied
      insert row (rows.filter fun r => r.equality || (r.coeffs != direction && r.coeffs != opposite))
    else some rows
  | _, _ => some rows

/-- The system of a list of constraints. -/
def ofConstraints (cs : List Constraint) : Option System := do
  let rows ← (← properRows cs).foldlM (fun rows row => insert row rows) []
  (rows.filter (!·.equality)).foldlM (fun rows r => close rows r.coeffs) rows

/-! ### Elimination -/

/-- Of two equalities, the one with the lesser multiple of a variable. -/
def betterPivot (v : Nat) (best : Option Constraint) (r : Constraint) : Option Constraint :=
  if !r.equality || r.coeff v = 0 then best
  else match best with
    | none => some r
    | some b => if Arithmetic.abs (r.coeff v) < Arithmetic.abs (b.coeff v) then some r else some b

/-- The equality by which a variable is substituted, if there is one. -/
def pivot? (rows : System) (v : Nat) : Option Constraint :=
  rows.foldl (betterPivot v) none

/-- Replaces a variable in the other rows by means of an equality. The rows are scaled by a positive
factor, which keeps the direction of an inequality. -/
def substitute (rows : System) (eq : Constraint) (v : Nat) : List Constraint :=
  let pivot := if eq.coeff v < 0 then eq.form.neg else eq.form
  let a := pivot.coeff v
  (rows.erase eq).map fun r =>
    if r.coeff v = 0 then r
    else { r with form := (r.form.scale a).sub (pivot.scale (r.coeff v)) }

/-- Pairs every lower bound of a variable with every upper bound. -/
def shadow (rows : System) (v : Nat) : List Constraint :=
  let lower := rows.filter (·.coeff v > 0)
  let upper := rows.filter (·.coeff v < 0)
  rows.filter (·.coeff v = 0) ++ lower.flatMap fun p => upper.map fun q =>
    .atLeast ((p.form.scale (fit (-q.coeff v))).add (q.form.scale (p.coeff v)))

/-- Removes a variable, so that no row mentions it. -/
def eliminate (rows : System) (v : Nat) : Option System :=
  match rows.pivot? v with
  | some eq => ofConstraints (rows.substitute eq v)
  | none => ofConstraints (rows.shadow v)

/-- What it costs to eliminate a variable: nothing when an equality can be used, and otherwise the
number of rows by which the system grows. -/
structure Cost where
  isExact : Bool
  growth : Int

def Cost.cheaper (a b : Cost) : Bool :=
  (a.isExact && !b.isExact) || (a.isExact == b.isExact && a.growth < b.growth)

def cost (rows : System) (v : Nat) : Cost :=
  if rows.any fun r => r.equality && r.coeff v != 0 then ⟨true, 0⟩
  else
    let pos : Int := rows.countP (·.coeff v > 0)
    let neg : Int := rows.countP (·.coeff v < 0)
    ⟨false, pos * neg - pos - neg⟩

/-- The variable which is cheapest to eliminate, the first of several. -/
def cheapest (rows : System) (first : Nat) (rest : List Nat) : Nat :=
  (rest.foldl (fun (best, price) v =>
    let price' := rows.cost v
    if price'.cheaper price then (v, price') else (best, price)) (first, rows.cost first)).1

/-- Eliminates as many of the given variables as the count says, the cheapest first. -/
def eliminateSome : Nat → List Nat → System → Option System
  | 0, _, rows => some rows
  | _, [], rows => some rows
  | count + 1, v :: vs, rows =>
    let next := rows.cheapest v vs
    (rows.eliminate next).bind (eliminateSome count ((v :: vs).erase next))

/-- Eliminates the given variables, which are listed in increasing order. -/
def eliminateAll (vars : List Nat) (rows : System) : Option System :=
  eliminateSome vars.length vars rows

/-- The rows of a list of constraints after eliminating some variables. -/
def project (cs : List Constraint) (vars : List Nat) : Option System :=
  (ofConstraints cs).bind (eliminateAll vars)

/-! ### Bounds -/

/-- Tightens the bounds of a variable by a row that mentions no other variable. -/
def tighten (v : Nat) : Extended × Extended → Constraint → Extended × Extended
  | (lower, upper), r =>
    let a := r.coeff v
    if a = 0 then (lower, upper)
    else if r.equality then
      let value := .int (Arithmetic.truncDiv (fit (-r.const)) a)
      (lower.max value, upper.min value)
    else if a > 0 then
      (lower.max (.int (Arithmetic.ceilDiv (fit (-r.const)) a)), upper)
    else
      (lower, upper.min (.int (Arithmetic.floorDiv r.const (fit (-a)))))

/-- The bounds of a variable, once every other variable has been eliminated. There are none when
they contradict each other. -/
def bounds (rows : System) (v : Nat) : Option Interval :=
  let (lower, upper) := rows.foldl (tighten v) (.negInf, .posInf)
  Interval.between? lower upper

end System

end StreamLoom
