import StreamLoom.Failure
import StreamLoom.Schedule.Placement

/-!
# Scheduling problems

A problem asks for a placement of every entry such that each value is written before it is read. An
edge relates the points of a consumer to the points of a producer whose values they read.
-/

namespace StreamLoom

/-- A statement that is to be placed. -/
structure Entry where
  name : String
  domain : PointSet
  carrier : Option Nat
  scale : Int
  /-- Entries of one group get the same delay. -/
  group : Option Nat

structure Edge where
  producer : Nat
  consumer : Nat
  relation : Relation

structure Problem where
  entries : List Entry
  edges : List Edge

namespace Problem

/-- The carrier of an entry and its scale. -/
def carrierOf (p : Problem) (i : Nat) : Option Nat × Int :=
  match p.entries[i]? with
  | some e => (e.carrier, e.scale)
  | none => (none, 1)

/-- The reason for which some entries cannot be placed. Each is named once. -/
def infeasible (p : Problem) (reason : String) (entries : List Nat) : Failure :=
  .infeasible (entries.eraseDups.map fun i => (p.entries[i]?).elim "" (·.name)) reason

variable [Arithmetic]

/-- How far a read lags behind the write, but for the delays, as a form over the coordinates of the
consumer and then the producer. -/
def lag (p : Problem) (e : Edge) : Affine :=
  let n := e.relation.dims
  let (consumer, scale) := p.carrierOf e.consumer
  let (producer, scale') := p.carrierOf e.producer
  (Affine.carried n 0 consumer scale).sub (Affine.carried n e.relation.inputs producer scale')

/-- Whether the pairs of an edge have the coordinates that carry its ends. -/
def reaches (p : Problem) (e : Edge) : Bool :=
  (p.carrierOf e.producer).1.all (· < e.relation.outputs) &&
    (p.carrierOf e.consumer).1.all (· < e.relation.dims)

/-- How much later than its producer a consumer has to start, unless nothing is read. -/
def weight (p : Problem) (e : Edge) : Except Failure (Option Int) := do
  if !p.reaches e then throw (.fault .indexOutOfRange)
  match e.relation.bound (p.lag e).neg with
  | none => .ok none
  | some interval =>
    match interval.upper with
    | .int weight => .ok (some weight)
    | _ => .error (p.infeasible "unbounded dependence distance" [e.producer, e.consumer])

end Problem

end StreamLoom
