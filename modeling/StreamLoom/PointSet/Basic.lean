import StreamLoom.Affine.Search

/-!
# Sets of integer points

A set of points is described by constraints over its dimensions and over local variables, which are
existentially quantified: a point belongs to the set when some values of the locals satisfy every
constraint. Sets carry the name of the statement or array whose points they hold.
-/

namespace StreamLoom

/-- The points of `dims` coordinates for which some values of `locals` further variables satisfy the
constraints. -/
structure PointSet where
  name : String
  dims : Nat
  locals : Nat
  cons : List Constraint
deriving DecidableEq, Repr

/-- Raised on listing the points of a set which has infinitely many. -/
structure Unbounded where
deriving DecidableEq, Repr

def Unbounded.message (_ : Unbounded) : String := "set is unbounded"

namespace PointSet

/-- The set of all points. -/
def full (name : String) (dims : Nat) : PointSet := ⟨name, dims, 0, []⟩

/-- The set of no points, in the form in which it is written. -/
def empty (name : String) (dims : Nat) : PointSet := ⟨name, dims, 0, [.never dims]⟩

/-- The number of variables of the constraints. -/
def vars (s : PointSet) : Nat := s.dims + s.locals

def rename (s : PointSet) (name : String) : PointSet := { s with name }

/-- The points that also satisfy constraints over the dimensions. -/
def constrain (s : PointSet) (cs : List Constraint) : PointSet :=
  { s with cons := s.cons ++ cs.map (·.extend s.locals) }

/-- The set of points with the given constraints. -/
def ofConstraints (name : String) (dims : Nat) (cs : List Constraint) : PointSet :=
  (full name dims).constrain cs

variable [Arithmetic]

/-- The points with a given coordinate. -/
def fix (s : PointSet) (dim : Nat) (value : Int) : PointSet :=
  s.constrain [.zero ((Affine.var s.dims dim).plus (fit (-value)))]

/-- The points of both sets, under the name of the first. -/
def intersect (s o : PointSet) : PointSet :=
  let places := List.range s.dims ++ List.range' s.vars o.locals
  { s with
    locals := s.locals + o.locals
    cons := s.cons.map (·.extend o.locals) ++ o.cons.map (·.remap (s.vars + o.locals) places) }

/-- The points of the first set followed by those of the second, under the name of the first. -/
def product (s o : PointSet) : PointSet :=
  let dims := s.dims + o.dims
  let n := dims + s.locals + o.locals
  let left := List.range s.dims ++ List.range' dims s.locals
  let right := List.range' s.dims o.dims ++ List.range' (dims + s.locals) o.locals
  { s with
    dims
    locals := s.locals + o.locals
    cons := s.cons.map (·.remap n left) ++ o.cons.map (·.remap n right) }

/-- Whether the rational shadow of the set is empty, in which case so is the set. -/
def isEmpty (s : PointSet) : Bool :=
  (System.project s.cons (List.range s.vars)).isNone

/-- Whether no integer point was found in the set. -/
def isIntegerEmpty (s : PointSet) : Bool :=
  s.isEmpty || match System.ofConstraints s.cons with
    | none => true
    | some rows => !System.hasIntegerSolution s.vars rows

/-- The range of an objective over the dimensions of the set, unless the set is empty. A fresh
variable stands for the objective, and all others are eliminated. -/
def bound (s : PointSet) (objective : Affine) : Option Interval :=
  let n := s.vars
  let cs := s.cons.map (·.extend 1) ++
    [.equal (.var (n + 1) n) (objective.extend (s.locals + 1))]
  (System.project cs (List.range n)).bind (·.bounds n)

/-- The greatest value of an objective. -/
def maximum (s : PointSet) (objective : Affine) : Option Extended :=
  (s.bound objective).map (·.upper)

/-- The least value of an objective. -/
def minimum (s : PointSet) (objective : Affine) : Option Extended :=
  (s.bound objective).map (·.lower)

/-- The variables that a projection onto some dimensions eliminates. -/
def others (s : PointSet) (dims : List Nat) : List Nat :=
  (List.range s.vars).filter (!dims.contains ·)

/-- The coefficients of some dimensions. Of a dimension which is listed twice, only the last
listing keeps the coefficient. -/
def selected (dims : List Nat) (c : Constraint) : List Int :=
  (dims.zipIdx).map fun (d, i) => if (dims.drop (i + 1)).contains d then 0 else c.coeff d

/-- The rational shadow of the set on some dimensions, in the order given. -/
def projection (s : PointSet) (dims : List Nat) : PointSet :=
  match System.project s.cons (s.others dims) with
  | none => .empty s.name dims.length
  | some rows =>
    ⟨s.name, dims.length, 0, rows.map fun c => { c with form := ⟨selected dims c, c.const⟩ }⟩

def contains (s : PointSet) (point : List Int) : Bool :=
  !((point.zipIdx).foldl (fun t (x, d) => t.fix d x) s).isEmpty

/-- Joins the results for as many consecutive values as the count says. -/
def forValues (each : Int → Except Unbounded (List α)) : Nat → Int → Except Unbounded (List α)
  | 0, _ => .ok []
  | count + 1, x => do
    let here ← each x
    return here ++ (← forValues each count (x + 1))

/-- The points that extend a prefix by the last `count` coordinates, in lexicographic order. -/
def pointsFrom (s : PointSet) (start : List Int) : Nat → Except Unbounded (List (List Int))
  | 0 => .ok (if s.isEmpty then [] else [start])
  | count + 1 =>
    match s.bound (.var s.dims (s.dims - (count + 1))) with
    | none => .ok []
    | some interval =>
      match interval.ends? with
      | none => .error ⟨⟩
      | some (lo, hi) => forValues (fun x =>
          (s.fix (s.dims - (count + 1)) x).pointsFrom (start ++ [x]) count) (hi - lo + 1).toNat lo

/-- Every point of the set in lexicographic order, provided every dimension is bounded. -/
def points (s : PointSet) : Except Unbounded (List (List Int)) :=
  s.pointsFrom [] s.dims

/-! ### Locals -/

/-- Whether a local can be removed exactly: an equality defines it, or nothing mentions it. -/
def isRemovable (rows : System) (l : Nat) : Bool :=
  rows.any (fun c => c.equality && Arithmetic.abs (c.coeff l) == 1) || !rows.mentions l

/-- Removes the given locals where this is exact, and returns those which stay. -/
def removeLocals : List Nat → System → Option (System × List Nat)
  | [], rows => some (rows, [])
  | l :: ls, rows =>
    if isRemovable rows l then (rows.eliminate l).bind (removeLocals ls)
    else (removeLocals ls rows).map fun (rows, kept) => (rows, l :: kept)

/-- The same set without the locals that can be removed exactly. -/
def simplify (s : PointSet) : PointSet :=
  match (System.ofConstraints s.cons).bind (removeLocals (List.range' s.dims s.locals)) with
  | none => .empty s.name s.dims
  | some (rows, kept) =>
    { s with
      locals := kept.length
      cons := rows.map fun c =>
        { c with form := ⟨(List.range s.dims ++ kept).map c.coeff, c.const⟩ } }

/-! ### Text -/

/-- A head followed by constraints over the given variables, of which those from `bound` on are
quantified. -/
def describe (head : String) (names : List String) (bound : Nat) (cons : List Constraint) :
    String :=
  let quantified := names.drop bound
  let condition :=
    if cons.isEmpty then ""
    else " : " ++
      (if quantified.isEmpty then "" else "exists (" ++ ", ".intercalate quantified ++ ") : ") ++
      " and ".intercalate (cons.map (·.textWith names))
  "\x7b " ++ head ++ condition ++ " \x7d"

def text (s : PointSet) : String :=
  let dims := Text.numbered "i" s.dims
  describe (s.name ++ Text.tuple dims) (dims ++ Text.numbered "e" s.locals) s.dims s.cons

end PointSet

end StreamLoom
