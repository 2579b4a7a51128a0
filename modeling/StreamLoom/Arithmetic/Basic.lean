/-!
# Arithmetic of the compiler

All quantities of the compiler are integers. Its algorithms are written once, over an arithmetic
which says what becomes of an exact result: a 64-bit word keeps it modulo `2 ^ 64`, whereas exact
arithmetic leaves it alone. A statement about the integers can therefore be made about the same
definitions that run on words, for any run on which the two arithmetics agree.

Sums, differences and products need only one `fit` at the end, since reducing modulo `2 ^ 64`
commutes with them.
-/

namespace StreamLoom

/-- What becomes of the exact result of an integer operation. -/
class Arithmetic where
  fit : Int → Int

export Arithmetic (fit)

namespace Arithmetic

/-- The signed 64-bit word that is congruent to an integer. Most integers are small, and are
recognised as such without a division. -/
def wrap (x : Int) : Int :=
  if x.natAbs < 0x4000000000000000 then x else x.bmod 0x10000000000000000

theorem wrap_eq_bmod (x : Int) : wrap x = x.bmod 0x10000000000000000 := by
  unfold wrap
  split
  · rw [Int.bmod_def]
    omega
  · rfl

theorem wrap_of_mem {x : Int} (hlow : -0x8000000000000000 ≤ x) (hhigh : x < 0x8000000000000000) :
    wrap x = x := by
  rw [wrap_eq_bmod, Int.bmod_def]
  omega

/-- Signed 64-bit words, which wrap around. -/
@[reducible] def word64 : Arithmetic := ⟨wrap⟩

/-- The integers themselves. -/
@[reducible] def exact : Arithmetic := ⟨id⟩

@[simp] theorem fit_exact (x : Int) : @fit exact x = x := rfl

/-- The sum of the products of two rows, as far as both go. -/
def dot : List Int → List Int → Int
  | x :: xs, y :: ys => x * y + dot xs ys
  | _, _ => 0

end Arithmetic

end StreamLoom
