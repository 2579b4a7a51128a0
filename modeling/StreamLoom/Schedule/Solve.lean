import StreamLoom.Report
import StreamLoom.Schedule.Delays
import StreamLoom.Schedule.Order
import StreamLoom.Schedule.Problem

/-!
# Solving scheduling problems

The delays are the least ones that the edges allow. Entries that can execute at the same `θ` are
ordered, and the points of an entry that depends on itself have to follow the order of its inner
dimensions.
-/

namespace StreamLoom

namespace Problem

variable [Arithmetic]

/-! ### Delays -/

/-- What an edge demands: a delay between two entries, or that points of one entry which execute at
the same `θ` are in order. -/
inductive Demand where
  | nothing
  | delay (arc : Arc)
  | inOrder (edge : Edge)

def demand (p : Problem) (e : Edge) : Except Failure Demand := do
  match ← p.weight e with
  | none => return .nothing
  | some weight =>
    if e.producer ≠ e.consumer then return .delay ⟨e.producer, e.consumer, weight⟩
    else if weight > 0 then throw (p.infeasible "self dependency is not causal" [e.producer])
    else return if weight = 0 then .inOrder e else .nothing

/-- The arcs that keep the delays of a group equal: each entry is tied to the one before it. -/
def groupArcs (p : Problem) : List Arc :=
  (p.entries.zipIdx).flatMap fun (e, i) =>
    let previous := ((p.entries.take i).zipIdx).reverse.find? fun (f, _) =>
      e.group.isSome && f.group == e.group
    match previous with
    | some (_, j) => [⟨i, j, 0⟩, ⟨j, i, 0⟩]
    | none => []

def delays (p : Problem) (demands : List Demand) : Except Failure (List Int) :=
  let arcs := demands.filterMap fun
    | .delay arc => some arc
    | _ => none
  (Arc.longestPaths p.entries.length (arcs ++ p.groupArcs)).mapError
    (p.infeasible "cyclic dependencies")

/-! ### Order within an entry -/

/-- Why a point does not follow the points whose values it reads, among pairs that have been tied so
far, and given the remaining inner dimensions. -/
def disorder (inputs outputs : Nat) : List Nat → PointSet → Except Fault (Option String)
  | [], tied => return if tied.isEmpty then none else some "statement reads its own result"
  | d :: rest, tied =>
    if tied.isEmpty then return none
    else if d ≥ outputs then throw .indexOutOfRange
    else
      let n := inputs + outputs
      let diff := (Affine.var n d).sub (.var n (inputs + d))
      match ((tied.minimum diff).getD .negInf).compare (.int 0) with
      | .lt => return some "self dependency is not causal"
      | .gt => return none
      | .eq => disorder inputs outputs rest (tied.constrain [.zero diff])

/-- The pairs of an edge from an entry to itself which execute at the same `θ`. -/
def tiedPairs (carrier : Option Nat) (m : Relation) : PointSet :=
  match carrier with
  | some c => m.pairs.constrain [.equal (.var m.dims c) (.var m.dims (m.inputs + c))]
  | none => m.pairs

def checkOrder (p : Problem) (e : Edge) : Except Failure Unit :=
  match p.entries[e.producer]? with
  | none => .ok ()
  | some entry =>
    let inner := Placement.innerOf entry.domain.dims entry.carrier
    match disorder e.relation.inputs e.relation.outputs inner (tiedPairs entry.carrier e.relation) with
    | .ok none => .ok ()
    | .ok (some reason) => .error (p.infeasible reason [e.producer])
    | .error fault => .error (.fault fault)

/-! ### Order between entries -/

/-- Whether points that an edge relates can execute at the same `θ`. -/
def canTie (p : Problem) (delays : List Int) (e : Edge) : Bool :=
  let gap := fit (delays.getD e.consumer 0 - delays.getD e.producer 0)
  match e.relation.pairs.minimum ((p.lag e).plus gap) with
  | some lowest => lowest ≤ .int 0
  | none => false

/-- Which entries have to precede which others. -/
def ties (p : Problem) (delays : List Int) : List Tie :=
  (p.edges.filter fun e => e.producer != e.consumer && p.canTie delays e).map fun e =>
    ⟨e.producer, e.consumer⟩

def order (p : Problem) (delays : List Int) : Except Failure (List Nat) :=
  (Tie.sequence p.entries.length (p.ties delays)).mapError
    (p.infeasible "cyclic dependencies at same time")

/-! ### Placements -/

/-- Places every entry such that each value is written before it is read. The carrier of an entry has
to be one of its dimensions. -/
def solve (p : Problem) : Except Failure (List Placement) := do
  let demands ← p.edges.mapM p.demand
  let delays ← p.delays demands
  demands.forM fun
    | .inOrder e => p.checkOrder e
    | _ => .ok ()
  let sequence ← p.order delays
  if !p.entries.all (fun e => e.carrier.all (· < e.domain.dims)) then
    throw (.fault .indexOutOfRange)
  return (p.entries.zipIdx).map fun (e, i) =>
    ⟨e.domain, e.carrier, e.scale, delays.getD i 0, sequence.idxOf i⟩

/-- Solves a problem, and reports the placements. -/
def solving (p : Problem) : Stage (List Placement) := do
  let placements ← Stage.ofExcept p.solve
  (p.entries.zip placements).forM fun (e, placement) =>
    Stage.debug ("placed " ++ e.name ++ " at θ=" ++ placement.leading.text ++ " (order " ++
      toString placement.order ++ ")")
  return placements

end Problem

end StreamLoom
