import StreamLoom.Model.Computation
import StreamLoom.Program.Basic
import StreamLoom.Relation.Union

/-!
# Models

The model of a program consists of arrays, of statements which write them, and of the dependencies
between statements. A statement writes the element of its array at each point of its domain. Every
stream input is an array as well, written by a statement that copies the input.

How the elements of an array are stored is not known until storage has been allocated.
-/

namespace StreamLoom

/-- The points between zero and the given extents. -/
def PointSet.box [Arithmetic] (name : String) (extents : List Extent) : PointSet :=
  let n := extents.length
  .ofConstraints name n <| (extents.zipIdx).flatMap fun (extent, k) =>
    .atLeast (.var n k) :: match extent with
      | some size => [.lt (.var n k) (.constant n size)]
      | none => []

/-- How the elements of an array are stored. -/
structure Buffer where
  /-- The number of flow indices that each period produces. -/
  period : Int := 0
  /-- The first flow index of the steady state. -/
  offset : Int := 0
  /-- The dimensions in the order in which they are stored; the first one circulates. -/
  order : List Nat := []
  /-- The number of indices that are kept of each dimension, in that order. -/
  sizes : List Int := []
  /-- Whether a period can read what was written before it. -/
  outlives : Bool := false
deriving DecidableEq, Repr

/-- The number of elements which are kept. -/
def Buffer.length [Arithmetic] (b : Buffer) : Int := Arithmetic.product b.sizes

structure DataArray where
  name : String
  type : ValueType
  extents : List Extent
  /-- The input that the array holds. -/
  input : Option Nat := none
  isOutput : Bool := false
  buffer : Buffer := {}

namespace DataArray

def rank (a : DataArray) : Nat := a.extents.length

/-- The infinite dimension, along which a stream flows. It would be the last one if there were several. -/
def flow (a : DataArray) : Option Nat :=
  ((List.range a.rank).filter fun d => a.extents[d]? == some none).getLast?

/-- Along its flow, a stream has no end. -/
theorem extent_of_flow {a : DataArray} {d : Nat} (h : a.flow = some d) : a.extents[d]? = some none := by
  have hmem := (List.mem_filter.mp (List.mem_of_getLast? h)).2
  exact beq_iff_eq.mp hmem

theorem flow_lt {a : DataArray} {d : Nat} (h : a.flow = some d) : d < a.rank :=
  (List.getElem?_eq_some_iff.mp (extent_of_flow h)).1

theorem flow_ne_none {a : DataArray} {d : Nat} (h : a.extents[d]? = some none) : a.flow ≠ none := by
  have hrange : d ∈ List.range a.rank := List.mem_range.mpr (List.getElem?_eq_some_iff.mp h).1
  have hmem : d ∈ (List.range a.rank).filter fun d => a.extents[d]? == some none :=
    List.mem_filter.mpr ⟨hrange, beq_iff_eq.mpr h⟩
  intro hnone
  rw [List.getLast?_eq_none_iff.mp hnone] at hmem
  exact List.not_mem_nil hmem

def isInfinite (a : DataArray) : Bool := a.flow.isSome

/-- The indices of all elements. -/
def domain [Arithmetic] (a : DataArray) : PointSet := .box a.name a.extents

end DataArray

structure Statement where
  name : String
  domain : PointSet
  computation : Computation
  /-- The array that is written. -/
  array : Nat
  /-- Relates each point to the element written there. -/
  write : Relation
  /-- The flow dimension of the array. -/
  flow : Option Nat
  /-- The pattern that the statement stems from. -/
  origin : Option Origin

namespace Statement

def isInfinite (s : Statement) : Bool := s.flow.isSome

def dims (s : Statement) : Nat := s.domain.dims

def reads (s : Statement) : List Read := s.computation.reads

/-- The relation that takes each point of a domain to the element of the same index. -/
def writing [Arithmetic] (domain : PointSet) (array : DataArray) : Relation :=
  (Relation.identity domain.name array.name array.rank).intersectDomain domain

end Statement

/-- What a consumer reads of the values that a producer writes. -/
structure Dependency where
  producer : Nat
  consumer : Nat
  array : Nat
  /-- Relates points of the consumer to points of the producer. -/
  relation : Relation

structure Model where
  arrays : List DataArray := []
  statements : List Statement := []
  dependencies : List Dependency := []
  inputs : List Input := []
  output : Option Nat := none

namespace Model

/-- The statements which write an array. -/
def writers (m : Model) (array : Nat) : List Nat :=
  (List.range m.statements.length).filter fun i =>
    (m.statements[i]?).any (·.array == array)

def domains (m : Model) : SetUnion := ⟨m.statements.map (·.domain)⟩

def dependencyRelations (m : Model) : RelationUnion := ⟨m.dependencies.map (·.relation)⟩

def hasInfinite (m : Model) : Bool := m.statements.any (·.isInfinite)

def statement? (m : Model) (name : String) : Option Nat := m.statements.findIdx? (·.name == name)

/-- The name of a statement. -/
def nameOf (m : Model) (statement : Nat) : String := (m.statements[statement]?).elim "" (·.name)

end Model

end StreamLoom
