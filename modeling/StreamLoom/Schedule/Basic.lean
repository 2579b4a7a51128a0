import StreamLoom.Model.Basic
import StreamLoom.Relation.Guarded
import StreamLoom.Schedule.Placement

/-!
# Periodic schedules

A schedule executes a prologue once, and then the steady state once per period. In the combined time,
a point of the prologue is placed at `[0, θ, order, inner...]`, and a point of period `k` at
`[1 + k, θ, order, inner...]`, where `θ` is relative to the start of the period. Each period covers
as many indices of a stream as its rate says, beginning at the offset of its statement.
-/

namespace StreamLoom

/-- The placements of one phase, for those statements that execute in it. -/
structure Phase where
  placements : List (Option Placement)
  /-- The number of rows of every placement. -/
  width : Nat

namespace Phase

def placement? (p : Phase) (statement : Nat) : Option Placement :=
  (p.placements[statement]?).join

def isPresent (p : Phase) (statement : Nat) : Bool := (p.placement? statement).isSome

end Phase

structure Schedule where
  names : List String
  flows : List (Option Nat)
  prologue : Phase
  steady : Phase
  /-- The number of steps of a period. -/
  length : Int
  /-- The step at which the steady state starts. -/
  start : Int
  /-- The first flow index of the steady state, of each statement. -/
  offsets : List Int
  /-- The number of flow indices per period, of each statement. -/
  periods : List Int

namespace Schedule

/-- The number of rows of the combined time. -/
def width (s : Schedule) : Nat := 1 + max s.prologue.width s.steady.width

def isSteady (s : Schedule) (statement : Nat) : Bool := s.steady.isPresent statement

def offset (s : Schedule) (statement : Nat) : Int := s.offsets.getD statement 0

def period (s : Schedule) (statement : Nat) : Int := s.periods.getD statement 0

def flow (s : Schedule) (statement : Nat) : Nat := ((s.flows[statement]?).join).getD 0

def text (s : Schedule) : String :=
  "\x7b length: " ++ toString s.length ++ ", start: " ++ toString s.start ++ ", offsets: " ++
    Text.integers s.offsets ++ ", periods: " ++ Text.integers s.periods ++ " \x7d"

variable [Arithmetic]

/-! ### Combined time -/

/-- The forms of a time, filled up with zeros. -/
def padded (n width : Nat) (rows : List Affine) : List Affine :=
  rows ++ List.replicate (width - rows.length) (.constant n 0)

/-- The times of the points that a statement executes in the prologue. -/
def prologueTimes (s : Schedule) (i : Nat) (p : Placement) : Relation :=
  let rows := padded p.dims s.width (.constant p.dims 0 :: p.rows s.prologue.width)
  (Relation.ofRows (s.names.getD i "") p.dims "T" rows).intersectDomain p.domain

/-- The times of the points that a statement executes in some period. The variables are those of the
point, of its time, and the period, which is quantified. -/
def steadyTimes (s : Schedule) (m : Model) (i : Nat) (p : Placement) : Relation :=
  let width := s.width
  let n := p.dims + width + 1
  let k := Affine.var n (n - 1)
  let places := List.range p.dims
  let index := ((Affine.var n (s.flow i)).sub (k.scale (s.period i))).plus (fit (-s.offset i))
  let domain := ((m.statements[i]?).elim [] (·.domain.cons)).map (·.remap n places)
  let inPeriod := [.atLeast k, .atLeast index, .lt index (.constant n (s.period i)),
    .equal (.var n p.dims) (k.plus 1)]
  let rows := (padded p.dims (width - 1) (p.rows s.steady.width)).map (·.remap n places)
  let times := (rows.zipIdx).map fun (row, j) =>
    Constraint.equal (.var n (p.dims + 1 + j)) (if j = 0 then row.sub (k.scale s.length) else row)
  Relation.simplify
    ⟨s.names.getD i "", "T", p.dims, width, 1, domain ++ inPeriod ++ times⟩

/-- The statements that execute in a phase, with their placements. -/
def present (phase : Phase) : List (Nat × Placement) :=
  (phase.placements.zipIdx).filterMap fun (p, i) => p.map (i, ·)

/-- The times of all points of the prologue. -/
def prologueRelations (s : Schedule) : RelationUnion :=
  ⟨(present s.prologue).map fun (i, p) => s.prologueTimes i p⟩

/-- The times of all points of the steady state, over all periods. -/
def steadyRelations (s : Schedule) (m : Model) : RelationUnion :=
  ⟨(present s.steady).map fun (i, p) => s.steadyTimes m i p⟩

/-- The times of all points. -/
def combined (s : Schedule) (m : Model) : RelationUnion :=
  s.prologueRelations.union (s.steadyRelations m)

/-- A time with its phase in front, filled up with zeros. -/
def timed (s : Schedule) (first : Int) (rows : List Int) : List Int :=
  first :: rows ++ List.replicate (s.width - 1 - rows.length) 0

/-- The time of a point in the steady state. The point is moved into the first period. -/
def steadyTime? (s : Schedule) (i : Nat) (p : Placement) (point : List Int) :
    Except Fault (Option (List Int)) := do
  let index ← elementAt point (s.flow i)
  let k ← Arithmetic.floorDiv? (fit (index - s.offset i)) (s.period i)
  if k < 0 then return none
  let moved := point.set (s.flow i) (fit (index - k * s.period i))
  if ← p.domain.contains? moved then
    let rows ← (p.rows s.steady.width).mapM (·.eval? moved)
    return some (s.timed (fit (1 + k)) rows)
  else return none

/-- The time of a point in the prologue. -/
def prologueTime? (s : Schedule) (p : Placement) (point : List Int) :
    Except Fault (Option (List Int)) := do
  if ← p.domain.contains? point then
    return some (s.timed 0 (← (p.rows s.prologue.width).mapM (·.eval? point)))
  else return none

/-- The combined time of a point of a statement, if it is executed at all. -/
def time? (s : Schedule) (i : Nat) (point : List Int) : Except Fault (Option (List Int)) := do
  let early ← match s.prologue.placement? i with
    | some p => s.prologueTime? p point
    | none => pure none
  match early, s.steady.placement? i with
  | some time, _ => return some time
  | none, some p => s.steadyTime? i p point
  | none, none => return none

end Schedule

end StreamLoom
