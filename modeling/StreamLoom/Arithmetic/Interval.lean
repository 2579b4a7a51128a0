import StreamLoom.Arithmetic.Extended

/-!
# Intervals

A non-empty range of integers, either end of which may be missing.
-/

namespace StreamLoom

/-- The integers between two bounds, which are included. -/
structure Interval where
  lower : Extended
  upper : Extended
  ordered : lower ≤ upper
deriving DecidableEq

namespace Interval

/-- All integers. -/
def all : Interval := ⟨.negInf, .posInf, by simp⟩

/-- The interval between two bounds, unless they are out of order. -/
def between? (lower upper : Extended) : Option Interval :=
  if h : lower ≤ upper then some ⟨lower, upper, h⟩ else none

/-- The interval between two bounds, which have to be in order. -/
def between (lower upper : Extended) : Except Fault Interval :=
  match between? lower upper with
  | some interval => .ok interval
  | none => .error (.broken "invalid interval")

def isFinite (i : Interval) : Bool :=
  i.lower.isFinite && i.upper.isFinite

/-- Both ends of an interval which has them. -/
def ends? (i : Interval) : Option (Int × Int) :=
  match i.lower, i.upper with
  | .int lo, .int hi => some (lo, hi)
  | _, _ => none

def contains (i : Interval) (x : Int) : Bool :=
  i.lower ≤ .int x && .int x ≤ i.upper

/-- Whether one interval lies inside another. -/
def within (i outer : Interval) : Bool :=
  outer.lower ≤ i.lower && i.upper ≤ outer.upper

/-- The least interval that covers two intervals. -/
def union (i j : Interval) : Interval where
  lower := i.lower.min j.lower
  upper := i.upper.max j.upper
  ordered := Extended.le_trans (Extended.min_le_left _ _)
    (Extended.le_trans i.ordered (Extended.le_max_left _ _))

/-- The number of integers in an interval which has both ends. -/
def width [Arithmetic] (i : Interval) : Except Fault Int := do
  let hi ← i.upper.value
  let lo ← i.lower.value
  return fit (hi - lo + 1)

def text (i : Interval) : String :=
  "(" ++ i.lower.text ++ ".." ++ i.upper.text ++ ")"

end Interval

end StreamLoom
