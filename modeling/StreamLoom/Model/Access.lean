import StreamLoom.Model.Basic
import StreamLoom.Model.Guard

/-!
# Accesses

How the elements that an expression refers to become relations. Every index has to be affine, and
every element has to exist, except that a stream can be read before its first element: what is seen
there is the initial value of its buffer.
-/

namespace StreamLoom

/-- The statement for which an expression is modelled, and the bounds of the enclosing reduction
variables. -/
structure Frame where
  name : String
  domain : PointSet
  reductions : List (Int × Int) := []

namespace Frame

def dims (f : Frame) : Nat := f.domain.dims

/-- The number of variables that an index can mention. -/
def vars (f : Frame) : Nat := f.dims + f.reductions.length

/-- The frame inside of a reduction. -/
def within (f : Frame) (lower upper : Int) : Frame :=
  { f with reductions := f.reductions ++ [(lower, upper)] }

end Frame

namespace Access

variable [Arithmetic]

/-- The forms of the indices, or the first index that is not affine. -/
def indexForms (n : Nat) : List Expr → Except Failure (List Affine)
  | [] => .ok []
  | e :: rest =>
    match e.affine? n with
    | some a => (indexForms n rest).map (a :: ·)
    | none => .error (.unmodelledAt e.origin "non-affine index")

/-- Whether a constraint bounds nothing but a given dimension, from below. -/
def isLowerBound (c : Constraint) (dim : Nat) : Bool :=
  (c.coeffs.zipIdx).all fun (x, v) => if v = dim then x > 0 else x == 0

/-- The relation between the points of a statement and the elements at an index. The variables are
those of the point, of the element, and of the reductions. -/
def relate (f : Frame) (target : String) (pattern : List Affine) : Relation :=
  let rank := pattern.length
  let locals := f.reductions.length
  let n := f.dims + rank + locals
  let places := List.range f.dims ++ List.range' (f.dims + rank) locals
  let indices := (pattern.zipIdx).map fun (a, o) =>
    Constraint.equal (.var n (f.dims + o)) (a.remap n places)
  let bounds := (f.reductions.zipIdx).flatMap fun ((lower, upper), l) =>
    let v := Affine.var n (f.dims + rank + l)
    [.le (.constant n lower) v, .le v (.constant n upper)]
  let related : Relation := ⟨f.name, target, f.dims, rank, locals, indices ++ bounds⟩
  (related.intersectDomain f.domain).simplify

/-- Whether all points of a set satisfy a constraint of the elements that exist. The start of a
stream does not count. -/
def isWithin (image : PointSet) (flow : Option Nat) (c : Constraint) : Bool :=
  c.equality || flow.any (isLowerBound c ·) || (image.constrain [c.negate]).isEmpty

/-- The access to elements of a target with the given domain. -/
def make (f : Frame) (origin : Option Origin) (domain : PointSet) (flow : Option Nat)
    (indices : List Expr) : Except Failure Access := do
  if indices.length ≠ domain.dims then
    throw (.unmodelledAt origin (domain.name ++ " accessed with " ++ toString indices.length ++
      " indices (expected " ++ toString domain.dims ++ ")"))
  let pattern ← indexForms f.vars indices
  let relation := relate f domain.name pattern
  if domain.cons.all (isWithin relation.range flow) then return ⟨relation, pattern⟩
  else throw (.unmodelledAt origin (domain.name ++ " accessed out of bounds"))

end Access

end StreamLoom
