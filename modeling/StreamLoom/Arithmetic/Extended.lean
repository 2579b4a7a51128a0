import StreamLoom.Arithmetic.Basic
import StreamLoom.Fault

/-!
# Integers with infinities

A bound on a quantity is an integer or, when there is none, an infinity. The order places the
infinities at either end.
-/

namespace StreamLoom

/-- An integer, or the absence of a bound in one direction. -/
inductive Extended where
  | negInf
  | int (value : Int)
  | posInf
deriving DecidableEq, Repr

namespace Extended

def compare : Extended → Extended → Ordering
  | int x, int y => Ord.compare x y
  | negInf, negInf | posInf, posInf => .eq
  | negInf, _ | _, posInf => .lt
  | _, _ => .gt

instance : LE Extended := ⟨fun a b => a.compare b ≠ .gt⟩

instance (a b : Extended) : Decidable (a ≤ b) :=
  inferInstanceAs (Decidable (a.compare b ≠ .gt))

attribute [local simp] compare

theorem le_def (a b : Extended) : a ≤ b ↔ a.compare b ≠ .gt := Iff.rfl

@[simp] theorem negInf_le (a : Extended) : negInf ≤ a := by
  cases a <;> simp [le_def]

@[simp] theorem le_posInf (a : Extended) : a ≤ posInf := by
  cases a <;> simp [le_def]

@[simp] theorem int_le_int {x y : Int} : int x ≤ int y ↔ x ≤ y := by
  simp only [le_def, compare, Ord.compare, compareOfLessAndEq]
  split
  · simp; omega
  · split <;> simp <;> omega

theorem le_total (a b : Extended) : a ≤ b ∨ b ≤ a := by
  cases a <;> cases b <;> simp [Int.le_total]

@[simp] theorem not_posInf_le_int (x : Int) : ¬ posInf ≤ int x := by
  simp [le_def]

@[simp] theorem not_posInf_le_negInf : ¬ posInf ≤ negInf := by
  simp [le_def]

@[simp] theorem not_int_le_negInf (x : Int) : ¬ int x ≤ negInf := by
  simp [le_def]

theorem le_trans {a b c : Extended} (hab : a ≤ b) (hbc : b ≤ c) : a ≤ c := by
  cases a with
  | negInf => exact negInf_le c
  | posInf =>
    cases b with
    | negInf => exact absurd hab not_posInf_le_negInf
    | posInf => exact hbc
    | int y => exact absurd hab (not_posInf_le_int y)
  | int x =>
    cases b with
    | negInf => exact absurd hab (not_int_le_negInf x)
    | posInf =>
      cases c with
      | negInf => exact absurd hbc not_posInf_le_negInf
      | posInf => exact le_posInf (int x)
      | int z => exact absurd hbc (not_posInf_le_int z)
    | int y =>
      cases c with
      | negInf => exact absurd hbc (not_int_le_negInf y)
      | posInf => exact le_posInf (int x)
      | int z => exact int_le_int.mpr (Int.le_trans (int_le_int.mp hab) (int_le_int.mp hbc))

def min (a b : Extended) : Extended := if a ≤ b then a else b

def max (a b : Extended) : Extended := if b ≤ a then a else b

theorem min_le_left (a b : Extended) : min a b ≤ a := by
  unfold min
  split
  · cases a <;> simp
  · exact (le_total a b).resolve_left ‹_›

theorem le_max_left (a b : Extended) : a ≤ max a b := by
  unfold max
  split
  · cases a <;> simp
  · exact (le_total a b).resolve_right ‹_›

def isFinite : Extended → Bool
  | int _ => true
  | _ => false

/-- The integer itself, unless it is an infinity. -/
def toInt? : Extended → Option Int
  | int x => some x
  | _ => none

/-- The integer that an infinity does not have. -/
def value : Extended → Except Fault Int
  | int x => .ok x
  | _ => .error (.broken "cannot cast infinity into an integer")

variable [Arithmetic]

def negate : Extended → Extended
  | negInf => posInf
  | int x => int (fit (-x))
  | posInf => negInf

/-- Infinities absorb integers, whilst opposing infinities have no sum. -/
def add : Extended → Extended → Except Fault Extended
  | int x, int y => .ok (int (fit (x + y)))
  | int _, b => .ok b
  | a, int _ => .ok a
  | negInf, negInf => .ok negInf
  | posInf, posInf => .ok posInf
  | _, _ => .error (.broken "cannot add opposing infinities")

def sub (a b : Extended) : Except Fault Extended :=
  a.add b.negate

def text : Extended → String
  | negInf => "-∞"
  | int x => toString x
  | posInf => "+∞"

end Extended

end StreamLoom
