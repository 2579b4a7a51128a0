import StreamLoom.Model.Printer
import StreamLoom.Storage.Layout
import StreamLoom.Storage.Requirement

/-!
# Allocation of storage

Every array is given the smallest circular buffer that its dependencies require. Streams circulate
along their flow dimension, finite arrays along the dimension that carries their first statement.
-/

namespace StreamLoom

/-- The outcome of allocating storage. -/
structure Allocation where
  /-- The model with the buffers of its arrays. -/
  model : Model
  requirements : List Requirement

namespace Allocation

variable [Arithmetic]

/-- The dimension along which the buffer of an array circulates. -/
def carrier (m : Model) (s : Schedule) (array : DataArray) (number : Nat) : Option Nat :=
  if array.rank = 0 then none
  else match array.flow with
    | some flow => some flow
    | none =>
      let first := (m.writers number).head?.bind s.prologue.placement?
      some ((first.bind (·.carrier)).getD 0)

/-- The period of an array: that of the last of its statements which has one. -/
def periodOf (m : Model) (s : Schedule) (number : Nat) : Int :=
  ((m.writers number).map s.period).foldl (fun found p => if p > 0 then p else found) 0

/-- The first flow index of an array in the steady state. -/
def offsetOf (m : Model) (s : Schedule) (number : Nat) : Int :=
  (m.writers number).foldl (fun found i => if s.isSteady i then s.offset i else found) 0

/-- The number of slots, which need not exceed the extent of the carrier. -/
def slotsOf (extent : Extent) (slices : Int) : Int := extent.elim slices (min slices)

/-- The buffer of an array with the given number of slices. -/
def buffer (m : Model) (s : Schedule) (array : DataArray) (number : Nat) (slices : Int)
    (outlives : Bool) : Buffer :=
  let attributes : Buffer :=
    { period := periodOf m s number, offset := offsetOf m s number, outlives }
  match carrier m s array number with
  | none => attributes
  | some c =>
    let others := (List.range array.rank).filter (· ≠ c)
    let extent (d : Nat) : Extent := (array.extents[d]?).join
    { attributes with
      order := c :: others
      sizes := slotsOf (extent c) slices :: others.map fun d => (extent d).code }

/-- What a dependency requires of the buffer of its array. -/
def require (m : Model) (s : Schedule) (d : Dependency) : Except Failure Requirement :=
  let c := (m.arrays[d.array]?).bind fun array => carrier m s array d.array
  Requirement.ofDependency m s c d

/-- Allocates the storage of every array of a model. -/
def allocate (m : Model) (s : Schedule) : Stage Allocation := do
  let requirements ← m.dependencies.mapM fun d => do
    let r ← Stage.ofExcept (require m s d)
    Stage.debug (m.nameOf d.producer ++ " -> " ++ m.nameOf d.consumer ++ " requires " ++
      toString r.slices ++ " slices of " ++ (m.arrays[d.array]?).elim "" (·.name) ++ " (distance " ++
      toString r.distance ++ ")")
    return r
  let arrays := (m.arrays.zipIdx).map fun (array, i) =>
    let own := requirements.filter (·.dependency.array == i)
    let slices := own.foldl (fun n r => max n r.slices) 1
    let outlives := own.any fun r => Requirement.crossesPeriod s r.dependency
    { array with buffer := buffer m s array i slices outlives }
  (arrays.filter (·.rank ≠ 0)).forM fun array => Stage.debug ("allocated " ++ array.text)
  return ⟨{ m with arrays }, requirements⟩

end Allocation

end StreamLoom
