import Mathlib.Algebra.BigOperators.Group.Finset.Basic
import Mathlib.Algebra.BigOperators.Ring.Finset
import Mathlib.Data.Rat.Cast.Order
import Mathlib.Tactic.Linarith
import Mathlib.Tactic.Ring
import StreamLoom.Affine.System

/-!
# Values of affine forms

A form is evaluated at a valuation, which gives a value to every variable there could be. Valuations
do not have a length, so that eliminating, adding and moving variables never has to count them. They
take their values in any ring: in the integers where a point is meant, and in the rationals where
only the shadow of one is.

Everything here is about exact arithmetic, in which the operations on forms are the operations on
their values.
-/

namespace StreamLoom

attribute [local instance] Arithmetic.exact

/-- The valuation that a list of coordinates gives, with zero for all further variables. -/
def valuation (point : List Int) : Nat → Int := fun i => point.getD i 0

theorem ext_of_valuation {x y : List Int} (hlength : x.length = y.length)
    (h : ∀ i, i < y.length → valuation x i = valuation y i) : x = y := by
  refine List.ext_getElem hlength fun i hi hi' => ?_
  simpa [valuation, List.getD_eq_getElem?_getD, hi, hi'] using h i hi'

theorem valuation_append_left {x : List Int} {i : Nat} (hi : i < x.length) (y : List Int) :
    valuation (x ++ y) i = valuation x i := by
  simp only [valuation, List.getD_eq_getElem?_getD, List.getElem?_append_left hi]

theorem valuation_append_right (x y : List Int) (i : Nat) :
    valuation (x ++ y) (x.length + i) = valuation y i := by
  simp only [valuation, List.getD_eq_getElem?_getD]
  rw [List.getElem?_append_right (Nat.le_add_right _ _), Nat.add_sub_cancel_left]

theorem valuation_set {x : List Int} {d : Nat} (hd : d < x.length) (t : Int) :
    valuation (x.set d t) = Function.update (valuation x) d t := by
  funext i
  by_cases hi : i = d
  · subst hi
    simp [valuation, hd]
  · rw [Function.update_of_ne hi]
    simp only [valuation, List.getD_eq_getElem?_getD]
    rw [List.getElem?_set_ne (Ne.symm hi)]

theorem valuation_modify {x : List Int} {d : Nat} (hd : d < x.length) (f : Int → Int) :
    valuation (x.modify d f) = Function.update (valuation x) d (f (valuation x d)) := by
  rw [← valuation_set hd, List.modify_eq_set_getElem?, List.getElem?_eq_getElem hd]
  simp [valuation, hd]

namespace Affine

variable {K : Type} [CommRing K]

/-- The sum of the multiples of the variables. -/
def linear : List Int → (Nat → K) → K
  | [], _ => 0
  | c :: cs, x => c * x 0 + linear cs fun i => x (i + 1)

def valueAt (a : Affine) (x : Nat → K) : K := a.const + linear a.coeffs x

/-! ### The linear part -/

@[simp] theorem linear_nil (x : Nat → K) : linear [] x = 0 := rfl

@[simp] theorem linear_cons (c : Int) (cs : List Int) (x : Nat → K) :
    linear (c :: cs) x = c * x 0 + linear cs fun i => x (i + 1) := rfl

theorem linear_congr {cs : List Int} {x y : Nat → K}
    (h : ∀ i, cs.getD i 0 ≠ 0 → x i = y i) : linear cs x = linear cs y := by
  induction cs generalizing x y with
  | nil => rfl
  | cons c cs ih =>
    have hrest : linear cs (fun i => x (i + 1)) = linear cs fun i => y (i + 1) := by
      apply ih
      intro i hi
      exact h (i + 1) (by simpa using hi)
    rw [linear_cons, linear_cons, hrest]
    by_cases hc : c = 0
    · simp [hc]
    · rw [h 0 (by simpa using hc)]

theorem linear_zipWith_add {as bs : List Int} (hlength : as.length = bs.length) (x : Nat → K) :
    linear (List.zipWith (· + ·) as bs) x = linear as x + linear bs x := by
  induction as generalizing bs x with
  | nil =>
    have : bs = [] := List.length_eq_zero_iff.mp hlength.symm
    simp [this]
  | cons a as ih =>
    cases bs with
    | nil => simp at hlength
    | cons b bs =>
      have htail : as.length = bs.length := by simpa using hlength
      simp only [List.zipWith_cons_cons, linear_cons, ih htail, Int.cast_add]
      ring

theorem linear_zipWith_sub {as bs : List Int} (hlength : as.length = bs.length) (x : Nat → K) :
    linear (List.zipWith (· - ·) as bs) x = linear as x - linear bs x := by
  induction as generalizing bs x with
  | nil =>
    have : bs = [] := List.length_eq_zero_iff.mp hlength.symm
    simp [this]
  | cons a as ih =>
    cases bs with
    | nil => simp at hlength
    | cons b bs =>
      have htail : as.length = bs.length := by simpa using hlength
      simp only [List.zipWith_cons_cons, linear_cons, ih htail, Int.cast_sub]
      ring

theorem linear_map_mul (as : List Int) (k : Int) (x : Nat → K) :
    linear (as.map (· * k)) x = k * linear as x := by
  induction as generalizing x with
  | nil => simp
  | cons a as ih =>
    simp only [List.map_cons, linear_cons, ih, Int.cast_mul]
    ring

theorem linear_map_neg (as : List Int) (x : Nat → K) : linear (as.map (- ·)) x = -linear as x := by
  have h := linear_map_mul as (-1) x
  simpa using h

@[simp] theorem linear_replicate_zero (n : Nat) (x : Nat → K) :
    linear (List.replicate n 0) x = 0 := by
  induction n generalizing x with
  | zero => rfl
  | succ n ih => simp [List.replicate_succ, ih]

theorem linear_append_zeros (as : List Int) (n : Nat) (x : Nat → K) :
    linear (as ++ List.replicate n 0) x = linear as x := by
  induction as generalizing x with
  | nil => simp
  | cons a as ih => simp [ih]

theorem linear_set (as : List Int) (v : Nat) (c : Int) (x : Nat → K) (hv : v < as.length) :
    linear (as.set v c) x = linear as x + (c - as.getD v 0) * x v := by
  induction as generalizing v x with
  | nil => simp at hv
  | cons a as ih =>
    cases v with
    | zero =>
      simp only [List.set_cons_zero, linear_cons, List.getD_cons_zero]
      ring
    | succ v =>
      have htail : v < as.length := by simpa using hv
      simp only [List.set_cons_succ, linear_cons, ih v _ htail, List.getD_cons_succ]
      ring

theorem linear_update (as : List Int) (v : Nat) (t : K) (x : Nat → K) :
    linear as (Function.update x v t) = linear as x + as.getD v 0 * (t - x v) := by
  induction as generalizing v x with
  | nil => simp
  | cons a as ih =>
    cases v with
    | zero =>
      have htail : (fun i => Function.update x 0 t (i + 1)) = fun i => x (i + 1) := by
        funext i
        simp
      simp only [linear_cons, htail, Function.update_self, List.getD_cons_zero]
      ring
    | succ v =>
      have htail : (fun i => Function.update x (v + 1) t (i + 1)) =
          Function.update (fun i => x (i + 1)) v t := by
        funext i
        by_cases h : i = v
        · simp [h]
        · simp [h]
      have hhead : Function.update x (v + 1) t 0 = x 0 := by simp
      simp only [linear_cons, htail, hhead, ih, List.getD_cons_succ]
      ring

theorem linear_eq_sum (as : List Int) (x : Nat → K) :
    linear as x = ∑ i ∈ Finset.range as.length, (as.getD i 0 : K) * x i := by
  induction as generalizing x with
  | nil => simp
  | cons a as ih =>
    rw [linear_cons, ih, List.length_cons, Finset.sum_range_succ']
    simp only [List.getD_cons_succ, List.getD_cons_zero]
    ring

theorem linear_map_range (n : Nat) (f : Nat → Int) (x : Nat → K) :
    linear ((List.range n).map f) x = ∑ i ∈ Finset.range n, (f i : K) * x i := by
  rw [linear_eq_sum, List.length_map, List.length_range]
  apply Finset.sum_congr rfl
  intro i hi
  have hlt : i < n := Finset.mem_range.mp hi
  simp [List.getD_eq_getElem?_getD, hlt]

theorem linear_intCast (as : List Int) (x : Nat → Int) :
    linear as (fun i => (x i : K)) = ((linear as x : Int) : K) := by
  induction as generalizing x with
  | nil => simp
  | cons a as ih => simp [ih]

/-! ### Operations on forms -/

theorem valueAt_congr {a : Affine} {x y : Nat → K} (h : ∀ i, a.coeff i ≠ 0 → x i = y i) :
    a.valueAt x = a.valueAt y := by
  rw [valueAt, valueAt, linear_congr h]

@[simp] theorem valueAt_constant (n : Nat) (c : Int) (x : Nat → K) :
    (constant n c).valueAt x = c := by
  simp [valueAt, constant]

theorem valueAt_var {n i : Nat} (hi : i < n) (x : Nat → K) : (var n i).valueAt x = x i := by
  rw [valueAt, var, linear_set _ _ _ _ (by simpa using hi)]
  simp [List.getD_eq_getElem?_getD, hi]

theorem valueAt_add {a b : Affine} (hvars : a.vars = b.vars) (x : Nat → K) :
    (a.add b).valueAt x = a.valueAt x + b.valueAt x := by
  simp only [valueAt, add, Arithmetic.fit_exact]
  rw [linear_zipWith_add hvars, Int.cast_add]
  ring

theorem valueAt_sub {a b : Affine} (hvars : a.vars = b.vars) (x : Nat → K) :
    (a.sub b).valueAt x = a.valueAt x - b.valueAt x := by
  simp only [valueAt, sub, Arithmetic.fit_exact]
  rw [linear_zipWith_sub hvars, Int.cast_sub]
  ring

@[simp] theorem valueAt_scale (a : Affine) (k : Int) (x : Nat → K) :
    (a.scale k).valueAt x = k * a.valueAt x := by
  simp only [valueAt, scale, Arithmetic.fit_exact]
  rw [linear_map_mul, Int.cast_mul]
  ring

@[simp] theorem valueAt_neg (a : Affine) (x : Nat → K) : a.neg.valueAt x = -a.valueAt x := by
  simp [neg]

@[simp] theorem valueAt_plus (a : Affine) (c : Int) (x : Nat → K) :
    (a.plus c).valueAt x = a.valueAt x + c := by
  simp only [valueAt, plus, Arithmetic.fit_exact, Int.cast_add]
  ring

@[simp] theorem valueAt_extend (a : Affine) (k : Nat) (x : Nat → K) :
    (a.extend k).valueAt x = a.valueAt x := by
  simp [valueAt, extend, linear_append_zeros]

theorem valueAt_setCoeff (a : Affine) (v : Nat) (c : Int) (x : Nat → K) (hv : v < a.vars) :
    (a.setCoeff v c).valueAt x = a.valueAt x + (c - a.coeff v) * x v := by
  rw [valueAt, setCoeff, linear_set _ _ _ _ hv, valueAt, coeff]
  ring

theorem valueAt_update (a : Affine) (v : Nat) (t : K) (x : Nat → K) :
    a.valueAt (Function.update x v t) = a.valueAt x + a.coeff v * (t - x v) := by
  rw [valueAt, linear_update, valueAt, coeff]
  ring

theorem valueAt_intCast (a : Affine) (x : Nat → Int) :
    a.valueAt (fun i => (x i : K)) = ((a.valueAt x : Int) : K) := by
  simp [valueAt, linear_intCast]

/-- The coefficient that a variable has after all variables have been moved. -/
private theorem foldl_place (cs : List (Int × Nat)) (s : Int) (j : Nat) :
    cs.foldl (fun sum (c, place) => if place = j then sum + c else sum) s =
      s + cs.foldl (fun sum (c, place) => if place = j then sum + c else sum) 0 := by
  induction cs generalizing s with
  | nil => simp
  | cons p cs ih =>
    simp only [List.foldl_cons]
    rw [ih, ih (if p.2 = j then 0 + p.1 else 0)]
    split <;> ring

private theorem sum_moved (n : Nat) (as : List Int) (places : List Nat)
    (hlength : as.length ≤ places.length) (hplaces : ∀ p ∈ places, p < n) (x : Nat → K) :
    ∑ j ∈ Finset.range n,
      (((as.zip places).foldl (fun sum (c, place) => if place = j then sum + c else sum) 0 : Int) : K)
        * x j = linear as fun i => x (places.getD i 0) := by
  induction as generalizing places with
  | nil => simp
  | cons a as ih =>
    cases places with
    | nil => simp at hlength
    | cons p places =>
      have hp : p < n := hplaces p (by simp)
      have hrest := ih places (by simpa using hlength) fun q hq => hplaces q (by simp [hq])
      have hterm : ∑ j ∈ Finset.range n, ((if p = j then a else 0 : Int) : K) * x j = a * x p := by
        rw [Finset.sum_eq_single p]
        · simp
        · intro j _ hj
          simp [Ne.symm hj]
        · intro hnot
          exact absurd (Finset.mem_range.mpr hp) hnot
      simp only [List.zip_cons_cons, List.foldl_cons, linear_cons, List.getD_cons_zero,
        List.getD_cons_succ]
      rw [← hrest, ← hterm, ← Finset.sum_add_distrib]
      apply Finset.sum_congr rfl
      intro j _
      rw [foldl_place]
      push_cast
      split <;> ring

/-- Moving the variables of a form moves the values that it is evaluated at. -/
theorem valueAt_remap (a : Affine) (n : Nat) (places : List Nat)
    (hlength : a.vars ≤ places.length) (hplaces : ∀ p ∈ places, p < n) (x : Nat → K) :
    (a.remap n places).valueAt x = a.valueAt fun i => x (places.getD i 0) := by
  simp only [valueAt, remap, Arithmetic.fit_exact]
  rw [linear_map_range, sum_moved n a.coeffs places hlength hplaces]

/-! ### Evaluation at points -/

theorem dot_eq_linear (as point : List Int) :
    Arithmetic.dot as point = linear as (valuation point) := by
  induction as generalizing point with
  | nil => cases point <;> rfl
  | cons a as ih =>
    cases point with
    | nil =>
      have hzero : linear (a :: as) (valuation []) = linear (a :: as) (fun _ => 0) := by
        congr 1
      have hsum : ∀ bs : List Int, linear bs (fun _ => (0 : Int)) = 0 := by
        intro bs
        induction bs with
        | nil => rfl
        | cons b bs ih => simp [ih]
      rw [hzero, hsum]
      rfl
    | cons x point =>
      rw [Arithmetic.dot, ih, linear_cons]
      rfl

theorem eval_eq_valueAt (a : Affine) (point : List Int) :
    a.eval point = a.valueAt (valuation point) := by
  simp [eval, valueAt, dot_eq_linear]

/-! ### Coefficients -/

theorem coeff_of_le {a : Affine} {v : Nat} (hv : a.vars ≤ v) : a.coeff v = 0 := by
  have hnone : a.coeffs[v]? = none := List.getElem?_eq_none hv
  simp [coeff, List.getD_eq_getElem?_getD, hnone]

theorem valueAt_congr_of_lt {K : Type} [CommRing K] {a : Affine} {n : Nat} (ha : a.vars ≤ n)
    {x y : Nat → K} (h : ∀ i, i < n → x i = y i) : a.valueAt x = a.valueAt y := by
  apply valueAt_congr
  intro i hi
  apply h
  by_contra hle
  exact hi (coeff_of_le (by omega))

@[simp] theorem vars_setCoeff (a : Affine) (v : Nat) (c : Int) : (a.setCoeff v c).vars = a.vars := by
  simp [vars, setCoeff]

theorem coeff_zipWith {f : Int → Int → Int} (hf : f 0 0 = 0) {as bs : List Int}
    (hlength : as.length = bs.length) (v : Nat) :
    (List.zipWith f as bs).getD v 0 = f (as.getD v 0) (bs.getD v 0) := by
  by_cases hv : v < as.length
  · have hv' : v < bs.length := hlength ▸ hv
    simp [List.getD_eq_getElem?_getD, hv, hv']
  · have hv' : bs.length ≤ v := by omega
    simp [List.getD_eq_getElem?_getD, List.getElem?_zipWith, List.getElem?_eq_none hv',
      List.getElem?_eq_none (Nat.le_of_not_lt hv), hf]

theorem coeff_add {a b : Affine} (hvars : a.vars = b.vars) (v : Nat) :
    (a.add b).coeff v = a.coeff v + b.coeff v :=
  coeff_zipWith (f := fun x y => x + y) rfl hvars v

theorem coeff_sub {a b : Affine} (hvars : a.vars = b.vars) (v : Nat) :
    (a.sub b).coeff v = a.coeff v - b.coeff v :=
  coeff_zipWith (f := fun x y => x - y) rfl hvars v

@[simp] theorem coeff_scale (a : Affine) (k : Int) (v : Nat) :
    (a.scale k).coeff v = a.coeff v * k := by
  by_cases hv : v < a.coeffs.length
  · simp [coeff, scale, List.getD_eq_getElem?_getD, hv]
  · simp [coeff, scale, List.getD_eq_getElem?_getD, List.getElem?_eq_none (Nat.le_of_not_lt hv)]

@[simp] theorem coeff_neg (a : Affine) (v : Nat) : a.neg.coeff v = -a.coeff v := by
  simp [neg]

theorem coeff_var {n i : Nat} (hi : i < n) (v : Nat) :
    (var n i).coeff v = if i = v then 1 else 0 := by
  by_cases h : i = v
  · subst h
    simp [coeff, var, List.getD_eq_getElem?_getD, hi]
  · simp [coeff, var, List.getD_eq_getElem?_getD, h, List.getElem?_replicate]
    split <;> rfl

@[simp] theorem coeff_constant (n : Nat) (c : Int) (v : Nat) : (constant n c).coeff v = 0 := by
  simp [coeff, constant, List.getD_eq_getElem?_getD, List.getElem?_replicate]
  split <;> rfl

@[simp] theorem coeff_plus (a : Affine) (c : Int) (v : Nat) : (a.plus c).coeff v = a.coeff v := rfl

end Affine

end StreamLoom
