import StreamLoom.Nest.Basic
import StreamLoom.Report
import StreamLoom.Schedule.Basic

/-!
# Generation of loop nests

The nest of a phase consists of a loop over the leading row of time, within which the statements
execute in their order, each over its inner dimensions. Where a statement is not active for all of
the loop it is guarded, unless the loop is split instead.
-/

namespace StreamLoom.Nest

/-- How loop nests are generated. -/
structure NestOptions where
  /-- Splits the loop over time into segments with the same active statements. -/
  splitLoops : Bool := false

/-- The iterator over time. -/
def timeName : String := "t"

/-- The iterator over a dimension of a statement. -/
def iteratorName (dim : Nat) : String := "i" ++ toString dim

variable [Arithmetic]

/-! ### Expressions -/

/-- A term of a sum. -/
def term (c : Int) (name : String) : Expr :=
  if c = 1 ∨ c = -1 then .name name else .binary .mul (.int (Arithmetic.abs c)) (.name name)

/-- Adds a term to a sum, or subtracts it when its coefficient is negative. -/
def addTerm (sum : Option Expr) (c : Int) (name : String) : Option Expr :=
  if c = 0 then sum
  else match sum, decide (c < 0) with
    | none, true => some (.binary .sub (.int 0) (term c name))
    | none, false => some (term c name)
    | some s, true => some (.binary .sub s (term c name))
    | some s, false => some (.binary .add s (term c name))

/-- The expression of an affine form over named variables. -/
def affineExpr (a : Affine) (names : List String) : Expr :=
  match (a.coeffs.zip names).foldl (fun sum (c, name) => addTerm sum c name) none with
  | none => .int a.const
  | some sum =>
    if a.const > 0 then .binary .add sum (.int a.const)
    else if a.const < 0 then .binary .sub sum (.int (fit (-a.const)))
    else sum

def subtract (e : Expr) (c : Int) : Expr :=
  if c > 0 then .binary .sub e (.int c)
  else if c < 0 then .binary .add e (.int (fit (-c)))
  else e

/-- The quotient of an affine form by a positive number, rounded up or down. -/
def quotient (num : Affine) (den : Int) (up : Bool) (names : List String) : Expr :=
  if num.isConstant then
    .int (if up then Arithmetic.ceilDiv num.const den else Arithmetic.floorDiv num.const den)
  else if den = 1 then affineExpr num names
  else .binary (if up then .ceilDiv else .floorDiv) (affineExpr num names) (.int den)

def Expr.literal? : Expr → Option Int
  | .int value => some value
  | _ => none

/-- The extreme of some bounds, in which the constants have been combined. -/
def combine (op : Extreme) (bounds : List Expr) : Expr :=
  let constants := bounds.filterMap (·.literal?)
  let elements := bounds.filter (·.literal?.isNone) ++ match constants with
    | [] => []
    | x :: rest => [.int (rest.foldl op.pick x)]
  match elements with
  | [e] => e
  | _ => .extreme op elements

/-! ### Bounds of loops -/

/-- The quotient that a variable is at least, by a constraint that bounds it from below. -/
def lowerQuotient (c : Constraint) (v : Nat) : Affine × Int :=
  let rest := c.form.setCoeff v 0
  if c.coeff v < 0 then (rest, fit (-c.coeff v)) else (rest.neg, c.coeff v)

/-- The quotient that a variable is at most, by a constraint that bounds it from above. It is that
of the lower bound wherever negation is exact. -/
def upperQuotient (c : Constraint) (v : Nat) : Affine × Int :=
  let rest := c.form.setCoeff v 0
  if fit (-c.coeff v) < 0 then (rest.neg, c.coeff v) else (rest, fit (-c.coeff v))

def lowerBounds (v : Nat) (names : List String) (cs : List Constraint) : List Expr :=
  (cs.filter fun c => c.coeff v > 0 || (c.equality && c.coeff v < 0)).map fun c =>
    let (num, den) := lowerQuotient c v
    quotient num den true names

def upperBounds (v : Nat) (names : List String) (cs : List Constraint) : List Expr :=
  (cs.filter fun c => c.coeff v < 0 || (c.equality && c.coeff v > 0)).map fun c =>
    let (num, den) := upperQuotient c v
    quotient num den false names

/-- The bounds of a dimension in terms of those that enclose it. -/
def loopBounds (domain : PointSet) (outer : List Nat) (dim : Nat) : Except String (Expr × Expr) :=
  let shadow := domain.projection (outer ++ [dim])
  let names := (outer ++ [dim]).map iteratorName
  let lowers := lowerBounds outer.length names shadow.cons
  let uppers := upperBounds outer.length names shadow.cons
  if lowers.isEmpty || uppers.isEmpty then
    .error ("dimension " ++ toString dim ++ " is unbounded")
  else .ok (combine .max lowers, combine .min uppers)

/-- The loops over the given dimensions, inside of those over the outer ones. -/
def innerLoops (domain : PointSet) (innermost : Node) :
    List Nat → List Nat → Except String Node
  | _, [] => .ok innermost
  | outer, d :: rest => do
    let body ← innerLoops domain innermost (outer ++ [d]) rest
    let (lower, upper) ← loopBounds domain outer d
    return .loop (iteratorName d) lower upper [body]

/-! ### Statements -/

/-- A statement of a phase, and the steps between which it is active. -/
structure Member where
  statement : Nat
  name : String
  placement : Placement
  first : Int
  last : Int

/-- What is required of the current step, and the value of the carrier at it. -/
def carrierAt (p : Placement) : List Condition × Expr :=
  let offset := subtract (.name timeName) p.delay
  if p.scale > 1 then
    ([⟨.binary .mod offset (.int p.scale), .eq, .int 0⟩],
      .binary .floorDiv offset (.int p.scale))
  else ([], offset)

/-- The part of a loop over the given steps that executes all points of a statement at the current
step. -/
def memberNode (m : Member) (first last : Int) : Except Failure Node := do
  let p := m.placement
  let active : List Condition :=
    (if m.first > first then [⟨.name timeName, .ge, .int m.first⟩] else []) ++
      (if m.last < last then [⟨.name timeName, .le, .int m.last⟩] else [])
  let (aligned, assignments) := match p.carrier with
    | some c => ((carrierAt p).1, [Node.assign (iteratorName c) (carrierAt p).2])
    | none => ([], [])
  let index := (List.range p.dims).map fun d => Expr.name (iteratorName d)
  let visit := Node.visit m.statement m.name (.int 0 :: index)
  let inner ← (innerLoops p.domain visit p.carrier.toList p.inner).mapError fun reason =>
    .other ("statement " ++ m.name ++ ": " ++ reason)
  let conditions := active ++ aligned
  let body := assignments ++ [inner]
  return if conditions.isEmpty then .block body else .guarded conditions body

/-! ### Phases -/

/-- The statements of a phase that have any points, in their order. -/
def members (m : Model) (phase : Phase) : Except Failure (List Member) := do
  let found ← (Schedule.present phase).mapM fun (i, p) =>
    match p.domain.bound p.leading with
    | none => .ok none
    | some interval =>
      match interval.ends? with
      | some (first, last) => .ok (some (Member.mk i (m.nameOf i) p first last))
      | none => .error (Failure.other ("statement " ++ m.nameOf i ++ " has unbounded domain " ++
          p.domain.text))
  return (found.filterMap id).mergeSort fun a b => a.placement.order ≤ b.placement.order

def timeLoop (first last : Int) (body : List Node) : Node :=
  .loop timeName (.int first) (.int last) body

/-- A single loop over all steps at which some member is active. -/
def wholeLoop (members : List Member) : Except Failure (List Node) :=
  match members with
  | [] => .ok []
  | m :: rest => do
    let first := rest.foldl (fun x n => min x n.first) m.first
    let last := rest.foldl (fun x n => max x n.last) m.last
    return [timeLoop first last (← members.mapM (memberNode · first last))]

/-- The steps at which a member starts or has just ended. -/
def breaks (members : List Member) : List Int :=
  ((members.flatMap fun m => [m.first, fit (m.last + 1)]).mergeSort (· ≤ ·)).eraseDups

/-- One loop per range of steps over which the same members are active. -/
def segments (members : List Member) : Except Failure (List Node) := do
  let breaks := breaks members
  let loops ← (breaks.zip breaks.tail).mapM fun (first, next) => do
    let last := fit (next - 1)
    let active := members.filter fun m => m.first ≤ first && last ≤ m.last
    let body ← active.mapM (memberNode · first last)
    return if body.isEmpty then none else some (timeLoop first last body)
  return loops.filterMap id

/-- The loop nest of a phase. -/
def ofPhase (m : Model) (phase : Phase) (options : NestOptions) : Except Failure (List Node) := do
  let members ← members m phase
  if options.splitLoops then segments members else wholeLoop members

/-- The loop nests of a schedule. -/
def generate (m : Model) (s : Schedule) (options : NestOptions) : Stage Nests := do
  let prologue ← Stage.ofExcept (ofPhase m s.prologue options)
  let steady ← Stage.ofExcept (ofPhase m s.steady options)
  Stage.debug ("prologue:\n" ++ Node.text prologue)
  Stage.debug ("steady state:\n" ++ Node.text steady)
  return ⟨prologue, steady⟩

end StreamLoom.Nest
