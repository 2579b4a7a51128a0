import StreamLoom.Schedule.Basic
import StreamLoom.Schedule.Rates
import StreamLoom.Schedule.Solve

/-!
# Synthesis of schedules

The statements without an end form the steady state. Everything else, and the first points of the
steady statements, belong to the prologue. The two are scheduled one after the other, or as a whole.
-/

namespace StreamLoom

/-- How schedules are synthesized. -/
structure ScheduleOptions where
  /-- Fuses the loops of finite arrays in the prologue. -/
  optimize : Bool := true
  /-- Schedules prologue and steady state together. -/
  whole : Bool := false

namespace Schedule

variable [Arithmetic]

/-! ### Steady statements -/

/-- Whether a constraint bounds the flow dimension only from below, if at all. -/
def isPeriodic (flow : Nat) (c : Constraint) : Bool :=
  c.coeff flow == 0 ||
    (!c.equality && (c.coeffs.zipIdx).all fun (x, v) => x ≥ 0 && (v == flow || x == 0))

/-- The lowest flow index of a statement without an end. Its domain has to be the same in every
period. -/
def steadyLow (s : Statement) (flow : Nat) : Except Failure (Option Int) := do
  match s.domain.bound (.var s.dims flow) with
  | none => return none
  | some interval =>
    if interval.upper.isFinite then return none
    if !s.domain.cons.all (isPeriodic flow) then
      throw (.infeasible [s.name] "domain is not periodic")
    return some (← interval.lower.value.mapError .fault)

/-- The lowest flow index of each statement of the steady state. -/
def steadyLows (m : Model) : Except Failure (List (Option Int)) :=
  m.statements.mapM fun s =>
    match s.flow with
    | some flow => steadyLow s flow
    | none => .ok none

/-! ### Problems -/

/-- The carrier of a statement: its flow dimension or, for a finite array whose loops are fused, the
first dimension. -/
def carrierOf (optimize : Bool) (s : Statement) : Option Nat :=
  match s.flow with
  | some flow => some flow
  | none => if optimize && s.dims > 0 then some 0 else none

/-- The entry of a statement. The statements of a stream can be made to keep the same delay. -/
def entryOf (optimize grouped : Bool) (s : Statement) (domain : PointSet) (scale : Int) : Entry where
  name := s.name
  domain := domain
  carrier := carrierOf optimize s
  scale := if s.isInfinite then scale else 1
  group := if grouped && s.isInfinite then some s.array else none

/-- The statements of a problem: their numbers, and what they are restricted to. -/
structure Selection where
  chosen : List Nat
  /-- The domains of all statements, when they are restricted. -/
  domains : Option (List PointSet)

def Selection.domain (c : Selection) (s : Statement) (i : Nat) : PointSet :=
  ((c.domains.bind (·[i]?))).getD s.domain

/-- The part of a dependency between chosen points. -/
def Selection.edge? (c : Selection) (d : Dependency) : Option Edge := do
  let producer ← c.chosen.idxOf? d.producer
  let consumer ← c.chosen.idxOf? d.consumer
  let relation := match c.domains.bind (·[d.consumer]?), c.domains.bind (·[d.producer]?) with
    | some x, some y => (d.relation.intersectDomain x).intersectRange y
    | _, _ => d.relation
  if relation.isEmpty then none else some ⟨producer, consumer, relation⟩

/-- The problem of placing some statements. -/
def problemOf (m : Model) (c : Selection) (scales : List Int) (optimize grouped : Bool) : Problem where
  entries := c.chosen.filterMap fun i => (m.statements[i]?).map fun s =>
    entryOf optimize grouped s (c.domain s i) (scales.getD i 1)
  edges := m.dependencies.filterMap c.edge?

/-- Places some statements; the others have no placement. -/
def place (m : Model) (c : Selection) (scales : List Int) (optimize grouped : Bool) :
    Stage (List (Option Placement)) := do
  let placements ← (problemOf m c scales optimize grouped).solving
  return (List.range m.statements.length).map fun i =>
    (c.chosen.idxOf? i).bind (placements[·]?)

/-! ### Start of the steady state -/

/-- The step after which a statement outside the steady state no longer reads what a producer in it
writes. -/
def lastRead (m : Model) (d : Dependency) (p : Placement) : Except Failure Int :=
  let latest := (Affine.carried d.relation.dims d.relation.inputs p.carrier p.scale).plus p.delay
  match d.relation.pairs.maximum latest with
  | none => .ok 0
  | some (.int step) => .ok (fit (step + 1))
  | some _ => .error (.infeasible [m.nameOf d.consumer] "finite statement reads unbounded stream")

/-- The earliest step at which the steady state can start: every statement of it has started, and
nothing outside of it still waits for a value. -/
def startOf (m : Model) (lows : List (Option Int)) (placed : List (Option Placement)) :
    Except Failure Int := do
  let started := (lows.zip placed).filterMap fun (low, p) => do
    let p ← p
    return fit (p.scale * (← low) + p.delay)
  let isSteady (i : Nat) : Bool := ((lows[i]?).join).isSome
  let reads ← m.dependencies.mapM fun d =>
    match isSteady d.producer && !isSteady d.consumer, (placed[d.producer]?).join with
    | true, some p => lastRead m d p
    | _, _ => .ok 0
  return (started ++ reads).foldl max 0

/-! ### Phases -/

/-- The points of a statement before a flow index. -/
def before (s : Statement) (flow : Nat) (index : Int) : PointSet :=
  s.domain.constrain [.lt (.var s.dims flow) (.constant s.dims index)]

/-- The points of a statement in its first period. -/
def firstPeriod (s : Statement) (flow : Nat) (offset period : Int) : PointSet :=
  s.domain.constrain [.le (.constant s.dims offset) (.var s.dims flow),
    .lt (.var s.dims flow) (.constant s.dims (fit (offset + period)))]

/-- The placement of the first period, relative to the start of the steady state. -/
def steadyPlacement (s : Statement) (offset period start : Int) (p : Placement) : Placement :=
  { p with
    domain := firstPeriod s (s.flow.getD 0) offset period
    delay := fit (p.delay - start) }

/-- The scale of each statement: how many steps there are between its flow indices. -/
def scalesOf (m : Model) (rates : Rates Int) : Except Fault (List Int) :=
  m.statements.mapM fun s =>
    match rates.lookup s.array with
    | some rate => Arithmetic.truncDiv? rates.period rate
    | none => .ok 1

/-- The first flow index of the steady state, of each statement. -/
def offsetsOf (lows : List (Option Int)) (placed : List (Option Placement)) (scales : List Int)
    (start : Int) : Except Fault (List Int) :=
  (lows.zip (placed.zip scales)).mapM fun (low, p, scale) =>
    match low, p with
    | some _, some p => Arithmetic.ceilDiv? (fit (start - p.delay)) scale
    | _, _ => .ok 0

/-- What is left of the statements for the prologue. -/
def prologueDomains (m : Model) (lows : List (Option Int)) (offsets : List Int) : List PointSet :=
  (m.statements.zip (lows.zip offsets)).map fun (s, low, offset) =>
    if low.isSome then before s (s.flow.getD 0) offset else s.domain

/-- The phase of some placements, after those that are absent have been left out. -/
def phaseOf (placements : List (Option Placement)) : Phase :=
  ⟨placements, Placement.widthOf (placements.filterMap id)⟩

/-- The periodic schedule of a model. -/
def synthesize (m : Model) (options : ScheduleOptions) : Stage Schedule := do
  let lows ← Stage.ofExcept (steadyLows m)
  let rates ← Stage.ofExcept (Rates.ofModel m (lows.map (·.isSome)))
  let scales ← Stage.ofGuarded (scalesOf m rates)
  Stage.debug ("steady period length " ++ toString rates.period ++ ", rates " ++ rates.text)
  let all := List.range m.statements.length
  let steady := all.filter fun i => ((lows[i]?).join).isSome
  let placed ← place m ⟨if options.whole then all else steady, none⟩ scales options.optimize true
  let start ← Stage.ofExcept (startOf m lows placed)
  let offsets ← Stage.ofGuarded (offsetsOf lows placed scales start)
  Stage.debug ("steady state starts at θ=" ++ toString start ++ ", offsets " ++ Text.integers offsets)
  let periods := m.statements.map fun s => (rates.lookup s.array).getD 0
  let domains := prologueDomains m lows offsets
  let early := all.filter fun i => (domains[i]?).any (!·.isEmpty)
  let placedEarly ← if options.whole then pure placed
    else place m ⟨early, some domains⟩ scales options.optimize false
  let steadyPlacements := all.map fun i => do
    let s ← m.statements[i]?
    let _ ← (lows[i]?).join
    return steadyPlacement s (offsets.getD i 0) (periods.getD i 0) start (← (placed[i]?).join)
  let earlyPlacements := all.map fun i => do
    let p ← (placedEarly[i]?).join
    if early.contains i then return { p with domain := ← domains[i]? } else none
  return {
    names := m.statements.map (·.name)
    flows := m.statements.map (·.flow)
    prologue := ⟨earlyPlacements,
      if early.isEmpty then 2 else Placement.widthOf (placedEarly.filterMap id)⟩
    steady := phaseOf steadyPlacements
    length := rates.period
    start
    offsets
    periods }

end Schedule

end StreamLoom
