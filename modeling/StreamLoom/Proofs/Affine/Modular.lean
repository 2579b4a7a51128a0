import StreamLoom.Proofs.Affine.Value

/-!
# Modular arithmetic

Of the intermediate results of sums and products only as much has to be kept as of the last one. The
arithmetic of words is of this kind, and so is the exact one, which keeps everything.

An affine form in such an arithmetic need not be the exact one, but what is kept of its values is the same.
-/

namespace StreamLoom

/-- An arithmetic that commutes with sums and products, and that keeps an interval of numbers. -/
class Arithmetic.Modular [Arithmetic] : Prop where
  fit_add (a b : Int) : fit (fit a + b) = fit (a + b)
  fit_mul (a b : Int) : fit (fit a * b) = fit (a * b)
  fit_zero : fit 0 = 0
  fit_between {a b c : Int} : a ≤ b → b ≤ c → fit a = a → fit c = c → fit b = b

namespace Arithmetic

export Modular (fit_add fit_mul fit_zero fit_between)

attribute [local instance] exact in
instance modular_exact : Modular where
  fit_add _ _ := rfl
  fit_mul _ _ := rfl
  fit_zero := rfl
  fit_between _ _ _ _ := rfl

attribute [local instance] word64 in
instance modular_word64 : Modular where
  fit_add a b := by
    change wrap (wrap a + b) = wrap (a + b)
    rw [wrap_eq_bmod, wrap_eq_bmod, wrap_eq_bmod, Int.bmod_add_bmod]
  fit_mul a b := by
    change wrap (wrap a * b) = wrap (a * b)
    rw [wrap_eq_bmod, wrap_eq_bmod, wrap_eq_bmod, Int.bmod_mul_bmod]
  fit_zero := rfl
  fit_between {a b c} hab hbc ha hc := by
    change wrap a = a at ha
    change wrap c = c at hc
    rw [wrap_eq_bmod, Int.bmod_def] at ha hc
    exact wrap_of_mem (by omega) (by omega)

variable [Arithmetic] [Modular]

theorem fit_fit (a : Int) : fit (fit a) = fit a := by
  have h := fit_add a 0
  rwa [add_zero, add_zero] at h

theorem fit_add_right (a b : Int) : fit (a + fit b) = fit (a + b) := by
  rw [add_comm, fit_add, add_comm]

theorem fit_mul_right (a b : Int) : fit (a * fit b) = fit (a * b) := by
  rw [mul_comm, fit_mul, mul_comm]

theorem fit_mul_add (a b c : Int) : fit (fit a * b + c) = fit (a * b + c) := by
  rw [← fit_add, fit_mul, fit_add]

theorem fit_neg (a : Int) : fit (-fit a) = fit (-a) := by
  rw [neg_eq_neg_one_mul, fit_mul_right, neg_one_mul]

theorem fit_sub (a b : Int) : fit (fit a - b) = fit (a - b) := fit_add a (-b)

theorem fit_sub_right (a b : Int) : fit (a - fit b) = fit (a - b) := by
  rw [sub_eq_add_neg, ← fit_add_right, fit_neg, fit_add_right, sub_eq_add_neg]

end Arithmetic

namespace Affine

open Arithmetic

variable [Arithmetic]

def kept (a : Affine) : Affine := ⟨a.coeffs.map fit, fit a.const⟩

private theorem add_eq_kept (a b : Affine) : a.add b = (@add .exact a b).kept := by
  simp [add, kept, List.map_zipWith]

private theorem sub_eq_kept (a b : Affine) : a.sub b = (@sub .exact a b).kept := by
  simp [sub, kept, List.map_zipWith]

private theorem scale_eq_kept (a : Affine) (k : Int) : a.scale k = (@scale .exact a k).kept := by
  simp [scale, kept]

theorem eval_eq_fit (a : Affine) (point : List Int) : a.eval point = fit (a.valueAt (valuation point)) := by
  rw [eval, dot_eq_linear, valueAt, Int.cast_id]

variable [Modular] {a b : Affine} (x : Nat → Int)

private theorem fit_linear_map_fit (as : List Int) : fit (linear (as.map fit) x) = fit (linear as x) := by
  induction as generalizing x with
  | nil => rfl
  | cons a as ih =>
    rw [List.map_cons, linear_cons, linear_cons, Int.cast_id, Int.cast_id, ← fit_add_right, ih, fit_add_right,
      fit_mul_add]

theorem fit_valueAt_kept (a : Affine) : fit (a.kept.valueAt x) = fit (a.valueAt x) := by
  rw [valueAt, valueAt, kept, Int.cast_id, Int.cast_id, fit_add, ← fit_add_right, fit_linear_map_fit,
    fit_add_right]

theorem fit_valueAt_add (hvars : a.vars = b.vars) :
    fit ((a.add b).valueAt x) = fit (a.valueAt x + b.valueAt x) := by
  rw [add_eq_kept, fit_valueAt_kept, valueAt_add hvars]

theorem fit_valueAt_sub (hvars : a.vars = b.vars) :
    fit ((a.sub b).valueAt x) = fit (a.valueAt x - b.valueAt x) := by
  rw [sub_eq_kept, fit_valueAt_kept, valueAt_sub hvars]

theorem fit_valueAt_scale (a : Affine) (k : Int) :
    fit ((a.scale k).valueAt x) = fit (k * a.valueAt x) := by
  rw [scale_eq_kept, fit_valueAt_kept, valueAt_scale, Int.cast_id]

theorem fit_valueAt_neg (a : Affine) : fit (a.neg.valueAt x) = fit (-a.valueAt x) := by
  rw [neg, fit_valueAt_scale, neg_one_mul]

theorem fit_valueAt_plus (a : Affine) (c : Int) : fit ((a.plus c).valueAt x) = fit (a.valueAt x + c) := by
  rw [valueAt, plus, Int.cast_id, fit_add, valueAt, Int.cast_id]
  congr 1
  ring

end Affine

end StreamLoom
