import StreamLoom.Schedule.Basic

/-!
# Instances of statements

A statement can execute in the prologue, in the steady state, or in both. An instance is the part of
it that executes in one of them. Those of the steady state cover all periods, with times that count
from the start of the first one.
-/

namespace StreamLoom

structure Instance where
  statement : Nat
  isSteady : Bool
  domain : PointSet
  /-- The leading row of the time. -/
  theta : Affine
  order : Nat
  inner : List Nat

namespace Instance

variable [Arithmetic]

def ofPlacement (statement : Nat) (isSteady : Bool) (domain : PointSet) (p : Placement) : Instance :=
  ⟨statement, isSteady, domain, p.leading, p.order, p.inner⟩

/-- The points of a statement from the start of the steady state on. -/
def steadyDomain (s : Schedule) (statement : Statement) (i : Nat) : PointSet :=
  statement.domain.constrain
    [.le (.constant statement.dims (s.offset i)) (.var statement.dims (s.flow i))]

/-- The instances of a statement. -/
def ofStatement (m : Model) (s : Schedule) (i : Nat) : List Instance :=
  let early := (s.prologue.placement? i).map fun p => ofPlacement i false p.domain p
  let late := do
    let p ← s.steady.placement? i
    return ofPlacement i true (steadyDomain s (← m.statements[i]?) i) p
  early.toList ++ late.toList

end Instance

end StreamLoom
