import StreamLoom.Model.Basic

/-!
# Targets

Statements are lowered in the same way for every target. A target says how each step of a
computation is emitted: in a monad of its own, and with values of its own, which can be expressions,
registers or the numbers themselves. Indices are always integers, whereas the elements of an array
have its type.
-/

namespace StreamLoom

/-- How computations are emitted in a monad `m`, with values of type `V`. -/
structure Target (m : Type → Type) (V : Type) where
  constant : Constant → m V
  /-- Converts an element from one type to another. -/
  convert : V → ValueType → ValueType → m V
  index : Int → m V
  indexAdd : V → V → m V
  indexMul : V → V → m V
  /-- The remainder by a positive number, which is never negative. -/
  indexMod : V → Int → m V
  /-- The current phase of the buffer of an array. -/
  phase : Nat → m V
  /-- The number of periods that have been completed. -/
  period : m V
  /-- The element at an offset of the buffer of an array. -/
  load : Nat → V → m V
  store : Nat → V → V → m Unit
  /-- The element at an offset of an input. -/
  loadInput : Nat → V → m V
  /-- Stores an element at an offset of the output. -/
  storeOutput : V → V → m Unit
  /-- Applies an operation to operands of the first type, with a result of the second. -/
  primitive : Op → ValueType → ValueType → List V → m V
  /-- A new variable. -/
  temporary : ValueType → m V
  assign : V → V → m Unit
  /-- The current value of a variable. -/
  use : V → m V
  branch : V → m Unit → m Unit → m Unit
  /-- A loop whose bounds are both included. -/
  loop : Int → Int → (V → m Unit) → m Unit
  /-- Tells which statement is lowered. -/
  note : String → m Unit

end StreamLoom
