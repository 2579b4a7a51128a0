import StreamLoom.Proofs.Affine.Search
import StreamLoom.Proofs.PointSet.Locals
import StreamLoom.Proofs.Relation.Membership

/-!
# Directions of recession

A form that has no greatest value on a set grows along a direction in which the set never ends. Such
a direction solves the constraints without their constants, and any multiple of it can be added to a
solution. When the set has an integer point, the direction is one of integers.

The direction is found as a limit. Solutions at which the form is `t`, divided by `t`, all belong to
the cone over the set, which has one more variable in place of the constants. The shadow of the cone
is described by finitely many rows, so it holds the limit as well, and what casts the limit is the
direction.
-/

namespace StreamLoom

attribute [local instance] Arithmetic.exact

open StreamLoom.System (Solves Over)

/-! ### Integers along a ray -/

/-- What never falls below some integer does not fall. -/
theorem nonneg_of_ray {a b l : Int} (h : ∀ k : Int, 0 ≤ k → l ≤ a + k * b) : 0 ≤ b := by
  by_contra hneg
  have hfar := h (|a - l| + 1) (by positivity)
  have habs := le_abs_self (a - l)
  nlinarith [abs_nonneg (a - l)]

/-- What stays between two integers does not move. -/
theorem eq_zero_of_ray {a b l u : Int} (h : ∀ k : Int, 0 ≤ k → l ≤ a + k * b ∧ a + k * b ≤ u) :
    b = 0 := by
  have hrises : 0 ≤ b := nonneg_of_ray fun k hk => (h k hk).1
  have hfalls : 0 ≤ -b := by
    refine nonneg_of_ray (a := -a) (l := -u) fun k hk => ?_
    have := (h k hk).2
    rw [mul_neg]
    omega
  omega

/-! ### Forms without a constant -/

namespace Affine

variable {K : Type} [CommRing K]

/-- The form without its constant, which is what a difference of two points changes it by. -/
def flat (a : Affine) : Affine := { a with const := 0 }

@[simp] theorem vars_flat (a : Affine) : a.flat.vars = a.vars := rfl

theorem valueAt_eq_flat (a : Affine) (x : Nat → K) : a.valueAt x = a.const + a.flat.valueAt x := by
  simp [valueAt, flat]

theorem flat_valueAt_add_mul (a : Affine) (x r : Nat → K) (k : K) :
    a.flat.valueAt (fun i => x i + k * r i) = a.flat.valueAt x + k * a.flat.valueAt r := by
  have hlinear : ∀ (cs : List Int) (x r : Nat → K),
      linear cs (fun i => x i + k * r i) = linear cs x + k * linear cs r := by
    intro cs
    induction cs with
    | nil => simp
    | cons c cs ih =>
      intro x r
      rw [linear_cons, linear_cons, linear_cons, ih (fun i => x (i + 1)) fun i => r (i + 1)]
      ring
  simp only [valueAt, flat, Int.cast_zero, zero_add]
  exact hlinear a.coeffs x r

@[simp] theorem flat_valueAt_zero (a : Affine) : a.flat.valueAt (fun _ => (0 : K)) = 0 := by
  simpa using a.flat_valueAt_add_mul (fun _ => 0) (fun _ => 0) (-1 : K)

theorem flat_valueAt_mul (a : Affine) (r : Nat → K) (k : K) :
    a.flat.valueAt (fun i => k * r i) = k * a.flat.valueAt r := by
  have h := a.flat_valueAt_add_mul (fun _ => 0) r k
  rwa [flat_valueAt_zero, zero_add, show (fun i => 0 + k * r i) = fun i => k * r i from
    funext fun i => zero_add _] at h

/-- Without its constant, a form is the difference to its value at zero. -/
theorem flat_valueAt (a : Affine) (x : Nat → K) :
    a.flat.valueAt x = a.valueAt x - a.valueAt fun _ => 0 := by
  rw [valueAt_eq_flat a x, valueAt_eq_flat a fun _ => 0, flat_valueAt_zero]
  ring

/-- A form moves along a direction by a multiple of its value without the constant. -/
theorem valueAt_add_mul (a : Affine) (x r : Nat → K) (k : K) :
    a.valueAt (fun i => x i + k * r i) = a.valueAt x + k * a.flat.valueAt r := by
  rw [valueAt_eq_flat, flat_valueAt_add_mul, valueAt_eq_flat a x, add_assoc]

/-- The form over two further variables whose constant is a multiple of the first of them. -/
def raised (a : Affine) : Affine := (a.flat.extend 2).add ((var (a.vars + 2) a.vars).scale a.const)

@[simp] theorem vars_raised (a : Affine) : a.raised.vars = a.vars + 2 := by
  simp [raised]

theorem valueAt_raised (a : Affine) (x : Nat → K) :
    a.raised.valueAt x = a.flat.valueAt x + a.const * x a.vars := by
  rw [raised, valueAt_add (by simp), valueAt_extend, valueAt_scale, valueAt_var (by omega)]

/-- A form over two variables, written out. -/
theorem valueAt_of_two {a : Affine} (ha : a.vars = 2) (x : Nat → K) :
    a.valueAt x = a.const + (a.coeff 0 * x 0 + a.coeff 1 * x 1) := by
  obtain ⟨coeffs, const⟩ := a
  match coeffs, ha with
  | [c, d], _ => simp [valueAt, coeff]

end Affine

namespace Constraint

/-- The constraint on a direction which lets it be added to any solution. -/
def flat (c : Constraint) : Constraint := { c with form := c.form.flat }

def raised (c : Constraint) : Constraint := { c with form := c.form.raised }

section

variable {K : Type} [CommRing K] [LinearOrder K]

theorem admits_flat {c : Constraint} {r : Nat → K} : c.flat.Admits r ↔
    if c.equality then c.form.flat.valueAt r = 0 else 0 ≤ c.form.flat.valueAt r := Iff.rfl

variable [IsStrictOrderedRing K]

theorem admits_flat_mul {c : Constraint} {r : Nat → K} (h : c.flat.Admits r) {k : K} (hk : 0 ≤ k) :
    c.flat.Admits fun i => k * r i := by
  rw [admits_flat] at h ⊢
  rw [Affine.flat_valueAt_mul]
  split
  · rename_i heq
    rw [if_pos heq] at h
    rw [h, mul_zero]
  · rename_i heq
    rw [if_neg heq] at h
    exact mul_nonneg hk h

theorem admits_add_mul {c : Constraint} {x r : Nat → K} (hx : c.Admits x) (hr : c.flat.Admits r) {k : K}
    (hk : 0 ≤ k) : c.Admits fun i => x i + k * r i := by
  rw [admits_flat] at hr
  rw [Admits] at hx ⊢
  rw [Affine.valueAt_add_mul]
  split
  · rename_i heq
    rw [if_pos heq] at hx hr
    rw [hx, hr, mul_zero, add_zero]
  · rename_i heq
    rw [if_neg heq] at hx hr
    exact add_nonneg hx (mul_nonneg hk hr)

end

/-- A constraint over two variables that holds along rays of every slope from some on also holds at
the limit of their directions. -/
theorem admits_limit {c : Constraint} (hc : c.vars = 2) {first : Int} {x : Nat → Int}
    (hzero : x 0 = 0) (hone : x 1 = 1)
    (h : ∀ t, first ≤ t → ∃ d : Int, 0 < d ∧ ∀ k : Int, 0 ≤ k → ∀ y : Nat → Int, y 0 = k * d →
      y 1 = k * d * t → c.Admits y) : c.Admits x := by
  have hform : c.form.vars = 2 := hc
  let y (d t k : Int) : Nat → Int := fun i => if i = 0 then k * d else k * d * t
  have hrays : ∀ t, first ≤ t → ∃ d : Int, 0 < d ∧ ∀ k : Int, 0 ≤ k → if c.equality
      then c.const + k * (d * (c.coeff 0 + c.coeff 1 * t)) = 0
      else 0 ≤ c.const + k * (d * (c.coeff 0 + c.coeff 1 * t)) := by
    intro t ht
    obtain ⟨d, hd, hray⟩ := h t ht
    refine ⟨d, hd, fun k hk => ?_⟩
    have hadmits := hray k hk (y d t k) rfl rfl
    rw [Admits, Affine.valueAt_of_two hform] at hadmits
    have hvalue : c.const + k * (d * (c.coeff 0 + c.coeff 1 * t)) =
        c.form.const + (c.form.coeff 0 * (k * d) + c.form.coeff 1 * (k * d * t)) := by
      simp only [const, coeff]
      ring
    rw [hvalue]
    exact hadmits
  rw [Admits, Affine.valueAt_of_two hform, hzero, hone]
  change if c.equality then c.const + (c.coeff 0 * 0 + c.coeff 1 * 1) = 0
    else 0 ≤ c.const + (c.coeff 0 * 0 + c.coeff 1 * 1)
  have hsplit : ∀ k, c.coeff 0 + c.coeff 1 * (first + k) =
      c.coeff 0 + c.coeff 1 * first + k * c.coeff 1 := by
    intro k
    ring
  by_cases heq : c.equality = true
  · simp only [heq, if_true] at hrays ⊢
    have hslope : ∀ t, first ≤ t → c.coeff 0 + c.coeff 1 * t = 0 := by
      intro t ht
      obtain ⟨d, hd, hray⟩ := hrays t ht
      have hproduct : d * (c.coeff 0 + c.coeff 1 * t) = 0 :=
        eq_zero_of_ray fun k hk => ⟨(hray k hk).ge, (hray k hk).le⟩
      exact (Int.mul_eq_zero.mp hproduct).resolve_left hd.ne'
    have hcoeff : c.coeff 1 = 0 := by
      refine eq_zero_of_ray (a := c.coeff 0 + c.coeff 1 * first) (l := 0) (u := 0) fun k hk => ?_
      rw [← hsplit, hslope (first + k) (by omega)]
      exact ⟨le_rfl, le_rfl⟩
    obtain ⟨d, -, hray⟩ := hrays first le_rfl
    have hconst : c.const = 0 := by simpa using hray 0 le_rfl
    rw [hconst, hcoeff]
    ring
  · simp only [heq] at hrays ⊢
    have hslope : ∀ t, first ≤ t → 0 ≤ c.coeff 0 + c.coeff 1 * t := by
      intro t ht
      obtain ⟨d, hd, hray⟩ := hrays t ht
      exact nonneg_of_mul_nonneg_right (nonneg_of_ray hray) hd
    have hcoeff : 0 ≤ c.coeff 1 := by
      refine nonneg_of_ray (a := c.coeff 0 + c.coeff 1 * first) (l := 0) fun k hk => ?_
      rw [← hsplit]
      exact hslope (first + k) (by omega)
    obtain ⟨d, -, hray⟩ := hrays first le_rfl
    have hconst : 0 ≤ c.const := by simpa using hray 0 le_rfl
    simp only [Bool.false_eq_true, if_false]
    omega

end Constraint

theorem exists_common_denominator (n : Nat) (x : Nat → ℚ) :
    ∃ d : Int, 0 < d ∧ ∃ z : Nat → Int, ∀ i, i < n → (z i : ℚ) = d * x i := by
  induction n with
  | zero => exact ⟨1, by decide, fun _ => 0, fun i hi => absurd hi (Nat.not_lt_zero i)⟩
  | succ n ih =>
    obtain ⟨d, hd, z, hz⟩ := ih
    have hden : (0 : Int) < (x n).den := Int.natCast_pos.mpr (x n).den_pos
    refine ⟨d * (x n).den, mul_pos hd hden,
      fun i => if i < n then z i * (x n).den else d * (x n).num, fun i hi => ?_⟩
    by_cases hlt : i < n
    · simp only [if_pos hlt]
      push_cast
      rw [hz i hlt]
      ring
    · obtain rfl : i = n := by omega
      simp only [lt_irrefl, if_false]
      push_cast
      rw [mul_assoc, mul_comm ((x i).den : ℚ), Rat.mul_den_eq_num]

/-! ### Directions of a set -/

namespace PointSet

variable {s : PointSet} {f : Affine}

/-- The directions in which a set does not end. -/
def flat (s : PointSet) : PointSet := { s with cons := s.cons.map Constraint.flat }

theorem regular_flat (hs : s.Regular) : s.flat.Regular := by
  intro _ hmem
  obtain ⟨c, hc, rfl⟩ := List.mem_map.mp hmem
  exact hs c hc

theorem solves_ray {K : Type} [CommRing K] [LinearOrder K] [IsStrictOrderedRing K] {x r : Nat → K}
    (hx : Solves x s.cons) (hr : Solves r s.flat.cons) {k : K} (hk : 0 ≤ k) :
    Solves (fun i => x i + k * r i) s.cons := by
  intro c hc
  exact Constraint.admits_add_mul (hx c hc) (hr c.flat (List.mem_map_of_mem hc)) hk

/-- The cone over a set, with the value of a form as the last variable. -/
private def cone (s : PointSet) (f : Affine) : PointSet :=
  ⟨s.name, s.vars + 2, 0, s.cons.map Constraint.raised ++
    [.equal (.var (s.vars + 2) (s.vars + 1)) (f.extend s.locals).raised]⟩

private theorem regular_cone (hs : s.Regular) (hf : f.vars = s.dims) : (s.cone f).Regular := by
  refine System.over_append.mpr ⟨?_, ?_⟩
  · intro c hc
    obtain ⟨c', hc', rfl⟩ := List.mem_map.mp hc
    change c'.form.raised.vars = s.vars + 2
    rw [Affine.vars_raised]
    exact congrArg (· + 2) (hs c' hc')
  · intro c hc
    obtain rfl := List.mem_singleton.mp hc
    change ((Affine.var _ _).sub _).vars = s.vars + 2
    rw [Affine.vars_sub, Affine.vars_var, Affine.vars_raised, Affine.vars_extend, hf, vars, min_self]

private theorem solves_cone {K : Type} [CommRing K] [LinearOrder K] (hf : f.vars = s.dims)
    {x : Nat → K} : Solves x (s.cone f).cons ↔
      Solves x (s.cons.map Constraint.raised) ∧
        x (s.vars + 1) = f.flat.valueAt x + f.const * x s.vars := by
  have hvars : (Affine.var (s.vars + 2) (s.vars + 1)).vars = (f.extend s.locals).raised.vars := by
    rw [Affine.vars_var, Affine.vars_raised, Affine.vars_extend, hf, vars]
  have hvalue : (f.extend s.locals).flat.valueAt x = f.flat.valueAt x :=
    Affine.valueAt_extend f.flat s.locals x
  simp only [cone, System.solves_append, System.solves_cons, System.solves_nil, and_true,
    Constraint.admits_equal hvars, Affine.valueAt_raised, Affine.vars_extend, hf,
    Affine.valueAt_var (show s.vars + 1 < s.vars + 2 by omega), hvalue]
  rfl

/-- The solutions of the cone where the variable for the constants is zero are directions. -/
private theorem solves_flat_of_cone {K : Type} [CommRing K] [LinearOrder K] (hs : s.Regular)
    {x : Nat → K} (hx : Solves x (s.cons.map Constraint.raised)) (hzero : x s.vars = 0) :
    Solves x s.flat.cons := by
  intro _ hflat
  obtain ⟨c, hc, rfl⟩ := List.mem_map.mp hflat
  have hadmits := hx c.raised (List.mem_map_of_mem hc)
  have hvars : c.form.vars = s.vars := hs c hc
  rwa [Constraint.Admits, Constraint.raised, Affine.valueAt_raised, hvars, hzero, mul_zero,
    add_zero] at hadmits

private theorem solves_cone_of_solves (hs : s.Regular) (hf : f.vars = s.dims) {x : Nat → ℚ}
    (hx : Solves x s.cons) {k : ℚ} (hk : 0 ≤ k) {y : Nat → ℚ} (hy : ∀ i, i < s.vars → y i = k * x i)
    (hnext : y s.vars = k) (hlast : y (s.vars + 1) = k * f.valueAt x) :
    Solves y (s.cone f).cons := by
  have hflat : ∀ a : Affine, a.vars ≤ s.vars → a.flat.valueAt y = k * a.flat.valueAt x := by
    intro a ha
    rw [← Affine.flat_valueAt_mul]
    exact Affine.valueAt_congr_of_lt (a := a.flat) ha hy
  rw [solves_cone hf]
  refine ⟨fun _ hraised => ?_, ?_⟩
  · obtain ⟨c, hc, rfl⟩ := List.mem_map.mp hraised
    have hvars : c.form.vars = s.vars := hs c hc
    have hvalue : c.form.raised.valueAt y = k * c.form.valueAt x := by
      rw [Affine.valueAt_raised, hflat _ hvars.le, hvars, hnext, Affine.valueAt_eq_flat c.form]
      ring
    have hadmits := hx c hc
    rw [Constraint.Admits] at hadmits
    rw [Constraint.Admits, Constraint.raised, hvalue]
    split
    · rename_i heq
      rw [if_pos heq] at hadmits
      rw [hadmits, mul_zero]
    · rename_i heq
      rw [if_neg heq] at hadmits
      exact mul_nonneg hk hadmits
  · rw [hlast, hnext, hflat f (by rw [hf, vars]; omega), Affine.valueAt_eq_flat f x]
    ring

private theorem ends_of_bound {interval : Interval} (h : s.bound f = some interval) :
    interval.lower ≠ .posInf ∧ interval.upper ≠ .negInf := by
  obtain ⟨rows, -, hbounds⟩ := Option.bind_eq_some_iff.mp h
  exact System.ends_of_bounds hbounds

/-- The range of a form without a greatest value has all integers from some on. -/
private theorem exists_contains_from {interval : Interval} (h : s.bound f = some interval)
    (hupper : ∀ w, interval.upper ≠ .int w) :
    ∃ first : Int, ∀ t, first ≤ t → interval.contains t = true := by
  obtain ⟨hlower, hinfinite⟩ := ends_of_bound h
  have htop : interval.upper = .posInf := by
    cases hend : interval.upper with
    | negInf => exact absurd hend hinfinite
    | int w => exact absurd hend (hupper w)
    | posInf => rfl
  cases hend : interval.lower with
  | posInf => exact absurd hend hlower
  | negInf =>
    refine ⟨0, fun t _ => Interval.contains_iff.mpr ?_⟩
    rw [hend, htop]
    exact ⟨Extended.negInf_le _, Extended.le_posInf _⟩
  | int l =>
    refine ⟨l, fun t ht => Interval.contains_iff.mpr ?_⟩
    rw [hend, htop]
    exact ⟨Extended.int_le_int.mpr ht, Extended.le_posInf _⟩

/-- Every row of the cone's shadow admits the limit, since it admits what the rays of the cone cast. -/
private theorem solves_limit (hs : s.Regular) (hf : f.vars = s.dims) {interval : Interval}
    (hbound : s.bound f = some interval) {first : Int}
    (hfirst : ∀ t, first ≤ t → interval.contains t = true) {x : Nat → Int} (hzero : x 0 = 0)
    (hone : x 1 = 1) : Solves x ((s.cone f).projection [s.vars, s.vars + 1]).cons := by
  intro c hc
  have hnodup : [s.vars, s.vars + 1].Nodup := by simp
  have hregular := regular_cone hs hf
  have hvars : c.vars = 2 := regular_projection hregular hnodup c hc
  refine Constraint.admits_limit hvars hzero hone fun t (ht : first ≤ t) => ?_
  obtain ⟨q, hq, hvalue⟩ := exists_solves_of_bound hs hf hbound (hfirst t ht)
  obtain ⟨d, hd, z, hz⟩ := exists_common_denominator s.vars q
  refine ⟨d, hd, fun k hk y hy hy' => ?_⟩
  let w : Nat → Int := fun i => if i < s.vars then k * z i else if i = s.vars then k * d else k * d * t
  have hw : Solves w (s.cone f).cons := by
    rw [← System.solves_intCast (K := ℚ)]
    apply solves_cone_of_solves hs hf hq (k := ((k * d : Int) : ℚ))
    · exact Int.cast_nonneg_iff.mpr (mul_nonneg hk hd.le)
    · intro i hi
      simp only [w, if_pos hi]
      push_cast
      rw [hz i hi]
      ring
    · simp [w]
    · simp [w, hvalue]
  refine (Constraint.admits_congr_of_lt hvars.le fun i hi => ?_).mp (solves_projection hregular hnodup hw c hc)
  rcases Nat.le_one_iff_eq_zero_or_eq_one.mp (Nat.le_of_lt_succ hi) with rfl | rfl
  · simp [w, hy]
  · simp [w, hy']

/-- Among the multiples of a rational direction there is one of integers. -/
private theorem exists_integral_direction (hs : s.Regular) (hf : f.vars = s.dims) {x : Nat → ℚ}
    (hx : Solves x s.flat.cons) (hvalue : f.flat.valueAt x = 1) :
    ∃ r : Nat → Int, Solves r s.flat.cons ∧ 0 < f.flat.valueAt r := by
  obtain ⟨d, hd, z, hz⟩ := exists_common_denominator s.vars x
  refine ⟨z, fun _ hmem => ?_, ?_⟩
  · have hadmits := hx _ hmem
    obtain ⟨c, hc, rfl⟩ := List.mem_map.mp hmem
    have hscaled : c.flat.Admits fun i => (d : ℚ) * x i :=
      Constraint.admits_flat_mul hadmits (Int.cast_nonneg_iff.mpr hd.le)
    rw [← Constraint.admits_intCast (K := ℚ)]
    have hvars : c.flat.vars = s.vars := hs c hc
    exact (Constraint.admits_congr_of_lt hvars.le hz).mpr hscaled
  · have hwithin : f.flat.vars ≤ s.vars := by
      rw [Affine.vars_flat, hf]
      exact Nat.le_add_right _ _
    have hscaled : ((f.flat.valueAt z : Int) : ℚ) = d := by
      rw [← Affine.valueAt_intCast, Affine.valueAt_congr_of_lt hwithin hz, Affine.flat_valueAt_mul, hvalue,
        mul_one]
    rw [Int.cast_injective hscaled]
    exact hd

/-- A form without a greatest value grows along some direction in which the set does not end. -/
theorem exists_direction (hs : s.Regular) (hf : f.vars = s.dims) {interval : Interval}
    (hbound : s.bound f = some interval) (hupper : ∀ w, interval.upper ≠ .int w) :
    ∃ r : Nat → Int, Solves r s.flat.cons ∧ 0 < f.flat.valueAt r := by
  obtain ⟨first, hfirst⟩ := exists_contains_from hbound hupper
  let limit : Nat → Int := fun i => if i = 0 then 0 else 1
  have hlimit := solves_limit hs hf hbound hfirst (x := limit) rfl rfl
  obtain ⟨x, hx, hcast⟩ := exists_solves_of_projection (regular_cone hs hf) (by simp)
    ((System.solves_intCast limit _).mpr hlimit)
  -- What casts the limit has no part in the constants, and there the form is one.
  have hzero : x s.vars = 0 := by simpa [limit] using hcast 0 (by simp)
  have hone : x (s.vars + 1) = 1 := by simpa [limit] using hcast 1 (by simp)
  obtain ⟨hrows, hvalue⟩ := (solves_cone hf).mp hx
  rw [hzero, mul_zero, add_zero, hone] at hvalue
  exact exists_integral_direction hs hf (solves_flat_of_cone hs hrows hzero) hvalue.symm

end PointSet

/-! ### Directions of a relation -/

namespace Relation

variable {m : Relation} {x y dx dy : Nat → Int}

/-- The directions in which a relation does not end. -/
def flat (m : Relation) : Relation := { m with cons := m.cons.map Constraint.flat }

/-- Any multiple of a direction can be added to a pair. -/
theorem links_ray (h : m.Links x y) (hd : m.flat.Links dx dy) {k : Int} (hk : 0 ≤ k) :
    m.Links (fun i => x i + k * dx i) fun o => y o + k * dy o := by
  obtain ⟨w, hwx, hwy, hw⟩ := h
  obtain ⟨v, hvx, hvy, hv⟩ := hd
  refine ⟨fun i => w i + k * v i, fun i hi => ?_, fun o ho => ?_,
    PointSet.solves_ray (s := m.pairs) hw hv hk⟩
  · show w i + k * v i = x i + k * dx i
    rw [hwx i hi, hvx i hi]
  · show w (m.inputs + o) + k * v (m.inputs + o) = y o + k * dy o
    have hflat : v (m.inputs + o) = dy o := hvy o ho
    rw [hwy o ho, hflat]

theorem regular_flat (hm : m.Regular) : m.flat.Regular := PointSet.regular_flat (s := m.pairs) hm

private theorem flat_reverse (m : Relation) : m.reverse.flat = m.flat.reverse := by
  simp only [reverse, flat, List.map_map]
  rfl

private theorem flat_intersectDomain (m : Relation) (s : PointSet) :
    (m.intersectDomain s).flat = m.flat.intersectDomain s.flat := by
  simp only [intersectDomain, flat, PointSet.flat, List.map_append, List.map_map]
  rfl

/-- Restricting a relation leaves it no further directions. -/
theorem links_flat_of_restricted {s t : PointSet} (hm : m.Regular) (hs : s.Regular)
    (hinputs : s.dims = m.inputs) (ht : t.Regular) (houtputs : t.dims = m.outputs)
    (h : ((m.intersectDomain s).intersectRange t).flat.Links dx dy) : m.flat.Links dx dy := by
  have hflat := regular_flat hm
  rw [intersectRange, flat_reverse, flat_intersectDomain, flat_reverse, flat_intersectDomain] at h
  change ((m.flat.intersectDomain s.flat).intersectRange t.flat).Links dx dy at h
  rw [links_intersectRange (regular_intersectDomain hflat) (PointSet.regular_flat ht) houtputs,
    links_intersectDomain hflat (PointSet.regular_flat hs) hinputs] at h
  exact h.1.1

/-- A form without a greatest value grows along some direction in which the relation does not end. -/
theorem exists_direction (hm : m.Regular) {f : Affine} (hf : f.vars = m.dims) {interval : Interval}
    (hbound : m.bound f = some interval) (hupper : ∀ w, interval.upper ≠ .int w) :
    ∃ dx dy, m.flat.Links dx dy ∧ 0 < f.flat.valueAt (joined m.inputs dx dy) := by
  obtain ⟨r, hr, hgrows⟩ :=
    PointSet.exists_direction (regular_pairs.mpr hm) hf hbound hupper
  refine ⟨r, fun o => r (m.inputs + o), ⟨r, fun _ _ => rfl, fun _ _ => rfl, hr⟩, ?_⟩
  have hjoined : joined m.inputs r (fun o => r (m.inputs + o)) = r := by
    funext i
    by_cases hi : i < m.inputs
    · exact joined_of_lt hi _ _
    · obtain ⟨o, rfl⟩ := Nat.exists_eq_add_of_le (Nat.le_of_not_lt hi)
      rw [joined_add]
  rwa [hjoined]

end Relation

end StreamLoom
