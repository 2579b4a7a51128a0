import StreamLoom.Proofs.Affine.Bounds

/-!
# Differences

A form that is the difference of two variables, or mentions only one of them or none, is a difference.
Combining two differences such that a variable cancels makes another difference, whose constant is at
most twice as large. As long as the constants are small, words lead to the same forms and constraints as
unbounded integers do.
-/

namespace StreamLoom

/-- A constraint whose coefficients have no common divisor is in lowest terms, apart from its sign. -/
theorem Constraint.reduce_of_gcdOf [Arithmetic] {c : Constraint} (h : Arithmetic.gcdOf c.coeffs = 1)
    (hcoeffs : ∀ x ∈ c.coeffs, fit x = x) (hconst : fit c.const = c.const) :
    c.reduce = .proper (if c.equality then .zero (upright c.form) else c) := by
  have hmap : c.coeffs.map (Arithmetic.truncDiv · 1) = c.coeffs := by
    rw [List.map_congr_left (g := id) fun x hx => by simpa [Arithmetic.truncDiv] using hcoeffs x hx]
    exact List.map_id _
  have htrunc : Arithmetic.truncDiv c.const 1 = c.const := by simpa [Arithmetic.truncDiv] using hconst
  have hfloor : Arithmetic.floorDiv c.const 1 = c.const := by simpa [Arithmetic.floorDiv] using hconst
  simp only [reduce, h, hmap, htrunc, hfloor]
  rcases c with ⟨form, equality⟩
  cases equality with
  | false => rfl
  | true =>
    simp
    rfl

attribute [local instance] Arithmetic.exact

namespace Arithmetic

@[simp] theorem fit_word64 (x : Int) : @fit word64 x = wrap x := rfl

theorem wrap_of_natAbs_lt {x : Int} (h : x.natAbs < 2 ^ 63) : wrap x = x :=
  wrap_of_mem (by omega) (by omega)

theorem abs_words {x : Int} (h : x.natAbs < 2 ^ 63) : @abs word64 x = abs x := by
  unfold abs
  rw [fit_word64, wrap_of_natAbs_lt (by omega), fit_exact]

theorem truncDiv_words {a b : Int} (h : a.natAbs < 2 ^ 63) : @truncDiv word64 a b = truncDiv a b := by
  have hle := Int.natAbs_tdiv_le_natAbs a b
  simp only [truncDiv, fit_word64, fit_exact]
  exact wrap_of_natAbs_lt (by omega)

/-- Units have a unit or nothing as their greatest common divisor. -/
theorem gcdOf_words {xs : List Int} (h : ∀ x ∈ xs, x.natAbs ≤ 1) :
    @gcdOf word64 xs = gcdOf xs ∧ (gcdOf xs = 0 ∨ gcdOf xs = 1) := by
  have hfold : ∀ g : Int, g = 0 ∨ g = 1 →
      xs.foldl (@gcd word64) g = xs.foldl gcd g ∧ (xs.foldl gcd g = 0 ∨ xs.foldl gcd g = 1) := by
    induction xs with
    | nil => exact fun g hg => ⟨rfl, hg⟩
    | cons x xs ih =>
      intro g hg
      have hx : x = 0 ∨ x = 1 ∨ x = -1 := by
        have hunit := h x (by simp)
        omega
      have hgcd : @gcd word64 g x = gcd g x := by
        unfold gcd
        rw [abs_words (by omega), abs_words (by omega)]
      have hstep : gcd g x = 0 ∨ gcd g x = 1 := by
        rw [gcd_eq_gcd]
        rcases hg with rfl | rfl <;> rcases hx with rfl | rfl | rfl <;> simp
      rw [List.foldl_cons, List.foldl_cons, hgcd]
      exact ih (fun y hy => h y (by simp [hy])) _ hstep
  exact hfold 0 (.inl rfl)

end Arithmetic

namespace Affine

/-- A form over `n` variables that adds at most one variable and subtracts at most one, and whose
constant is bounded. -/
structure Difference (n bound : Nat) (a : Affine) : Prop where
  vars : a.vars = n
  unit : ∀ v, (a.coeff v).natAbs ≤ 1
  added : ∀ v w, a.coeff v = 1 → a.coeff w = 1 → v = w
  taken : ∀ v w, a.coeff v = -1 → a.coeff w = -1 → v = w
  const : a.const.natAbs ≤ bound

namespace Difference

variable {n bound : Nat} {a b : Affine}

theorem mono {bound' : Nat} (h : a.Difference n bound) (hle : bound ≤ bound') : a.Difference n bound' :=
  { h with const := h.const.trans hle }

theorem unit_of_mem (h : a.Difference n bound) {x : Int} (hx : x ∈ a.coeffs) : x.natAbs ≤ 1 := by
  obtain ⟨v, hv, rfl⟩ := List.mem_iff_getElem.mp hx
  simpa [coeff, List.getD_eq_getElem?_getD, hv] using h.unit v

theorem neg (h : a.Difference n bound) : a.neg.Difference n bound where
  vars := by rw [vars_neg, h.vars]
  unit v := by simpa using h.unit v
  added v w hv hw := h.taken v w (by rw [coeff_neg] at hv; omega) (by rw [coeff_neg] at hw; omega)
  taken v w hv hw := h.added v w (by rw [coeff_neg] at hv; omega) (by rw [coeff_neg] at hw; omega)
  const := by simpa [Affine.neg, Affine.scale] using h.const

theorem scale_words (h : a.Difference n bound) (hbound : bound < 2 ^ 62) {k : Int} (hk : k.natAbs ≤ 1) :
    @scale .word64 a k = a.scale k := by
  have hsmall : ∀ x : Int, x.natAbs < 2 ^ 62 → Arithmetic.wrap (x * k) = x * k := fun x hx => by
    refine Arithmetic.wrap_of_natAbs_lt ?_
    rw [Int.natAbs_mul]
    have hle := Nat.mul_le_mul_left x.natAbs hk
    omega
  have hconst := h.const
  simp only [scale, Arithmetic.fit_word64, Arithmetic.fit_exact, hsmall a.const (by omega), mk.injEq,
    and_true]
  refine List.map_congr_left fun x hx => hsmall x ?_
  have hunit := h.unit_of_mem hx
  omega

theorem neg_words (h : a.Difference n bound) (hbound : bound < 2 ^ 62) :
    @Affine.neg .word64 a = a.neg :=
  h.scale_words hbound (by simp)

private theorem zipWith_words {f : Int → Int → Int} {as bs : List Int}
    (h : ∀ x ∈ as, ∀ y ∈ bs, (f x y).natAbs < 2 ^ 63) :
    List.zipWith (fun x y => Arithmetic.wrap (f x y)) as bs = List.zipWith f as bs := by
  induction as generalizing bs with
  | nil => simp
  | cons x as ih =>
    cases bs with
    | nil => simp
    | cons y bs =>
      simp only [List.zipWith_cons_cons, Arithmetic.wrap_of_natAbs_lt (h x (by simp) y (by simp))]
      rw [ih fun x hx y hy => h x (by simp [hx]) y (by simp [hy])]

theorem add_words (ha : a.Difference n bound) (hb : b.Difference n bound) (hbound : bound < 2 ^ 62) :
    @add .word64 a b = a.add b := by
  have hconst := ha.const
  have hconst' := hb.const
  simp only [add, Arithmetic.fit_word64, Arithmetic.fit_exact, mk.injEq]
  refine ⟨zipWith_words fun x hx y hy => ?_, Arithmetic.wrap_of_natAbs_lt (by omega)⟩
  have hunit := ha.unit_of_mem hx
  have hunit' := hb.unit_of_mem hy
  omega

theorem sub_words (ha : a.Difference n bound) (hb : b.Difference n bound) (hbound : bound < 2 ^ 62) :
    @sub .word64 a b = a.sub b := by
  have hconst := ha.const
  have hconst' := hb.const
  simp only [sub, Arithmetic.fit_word64, Arithmetic.fit_exact, mk.injEq]
  refine ⟨zipWith_words fun x hx y hy => ?_, Arithmetic.wrap_of_natAbs_lt (by omega)⟩
  have hunit := ha.unit_of_mem hx
  have hunit' := hb.unit_of_mem hy
  omega

/-- The sum of two differences is one if a variable cancels. -/
theorem add_cancel (ha : a.Difference n bound) (hb : b.Difference n bound) {v : Nat}
    (hadded : a.coeff v = 1) (htaken : b.coeff v = -1) : (a.add b).Difference n (2 * bound) := by
  have hcoeff := coeff_add (ha.vars.trans hb.vars.symm)
  have hunit (w : Nat) : w = v ∨ (a.coeff w = 0 ∨ a.coeff w = -1) ∧ (b.coeff w = 0 ∨ b.coeff w = 1) := by
    by_cases hw : w = v
    · exact .inl hw
    · have h₁ := ha.unit w
      have h₂ := hb.unit w
      have h₃ : a.coeff w ≠ 1 := fun h => hw (ha.added w v h hadded)
      have h₄ : b.coeff w ≠ -1 := fun h => hw (hb.taken w v h htaken)
      omega
  refine ⟨by rw [vars_add, ha.vars, hb.vars, min_self], fun w => ?_, fun w w' hw hw' => ?_,
    fun w w' hw hw' => ?_, ?_⟩
  · rw [hcoeff]
    rcases hunit w with rfl | h
    · omega
    · omega
  · rw [hcoeff] at hw hw'
    refine hb.added w w' ?_ ?_
    · rcases hunit w with rfl | h <;> omega
    · rcases hunit w' with rfl | h <;> omega
  · rw [hcoeff] at hw hw'
    refine ha.taken w w' ?_ ?_
    · rcases hunit w with rfl | h <;> omega
    · rcases hunit w' with rfl | h <;> omega
  · have h₁ := ha.const
    have h₂ := hb.const
    simp only [add, Arithmetic.fit_exact]
    omega

protected theorem constant (n : Nat) (c : Int) : (constant n c).Difference n c.natAbs :=
  ⟨by simp, by simp, by simp, by simp, le_rfl⟩

protected theorem var {v : Nat} (hv : v < n) : (var n v).Difference n 0 := by
  refine ⟨by simp, fun w => ?_, fun w w' hw hw' => ?_, fun w w' hw => ?_, le_rfl⟩
  · rw [coeff_var hv]
    split <;> simp
  · simp only [coeff_var hv, ite_eq_left_iff, zero_ne_one, imp_false, not_not] at hw hw'
    exact hw.symm.trans hw'
  · rw [coeff_var hv] at hw
    split at hw <;> simp at hw

/-- A form which subtracts no variable, less another such form. -/
theorem sub_of_nonneg {bound' : Nat} (ha : a.Difference n bound) (hb : b.Difference n bound')
    (hadds : ∀ v, 0 ≤ a.coeff v) (hadds' : ∀ v, 0 ≤ b.coeff v) :
    (a.sub b).Difference n (bound + bound') := by
  have hcoeff := coeff_sub (ha.vars.trans hb.vars.symm)
  have hunit (v : Nat) : 0 ≤ a.coeff v ∧ a.coeff v ≤ 1 ∧ 0 ≤ b.coeff v ∧ b.coeff v ≤ 1 := by
    have h₁ := ha.unit v
    have h₂ := hb.unit v
    have h₃ := hadds v
    have h₄ := hadds' v
    omega
  refine ⟨by rw [vars_sub, ha.vars, hb.vars, min_self], fun v => ?_, fun v w hv hw => ?_,
    fun v w hv hw => ?_, ?_⟩
  · rw [hcoeff]
    have h := hunit v
    omega
  · rw [hcoeff] at hv hw
    have h := hunit v
    have h' := hunit w
    exact ha.added v w (by omega) (by omega)
  · rw [hcoeff] at hv hw
    have h := hunit v
    have h' := hunit w
    exact hb.added v w (by omega) (by omega)
  · have h₁ := ha.const
    have h₂ := hb.const
    simp only [sub, Arithmetic.fit_exact]
    omega

theorem extend_zero (a : Affine) : a.extend 0 = a := by
  simp [extend]

private theorem ext_of_coeff (hvars : a.vars = b.vars) (hcoeff : ∀ v, a.coeff v = b.coeff v)
    (hconst : a.const = b.const) : a = b := by
  obtain ⟨as, c⟩ := a
  obtain ⟨bs, d⟩ := b
  refine mk.injEq .. |>.mpr ⟨List.ext_getElem hvars fun v hv hv' => ?_, hconst⟩
  simpa [coeff, List.getD_eq_getElem?_getD, hv, hv'] using hcoeff v

theorem remap_range (hvars : a.vars = n) : a.remap n (List.range n) = a := by
  have hvalue (x : Nat → Int) : (a.remap n (List.range n)).valueAt x = a.valueAt x := by
    rw [valueAt_remap _ _ _ (by simp [hvars]) (by simp)]
    apply valueAt_congr_of_lt hvars.le
    intro v hv
    simp [List.getD_eq_getElem?_getD, hv]
  have hcoeff (v : Nat) : (a.remap n (List.range n)).coeff v = a.coeff v := by
    have hupdate := hvalue (Function.update (fun _ => 0) v 1)
    rw [valueAt_update, valueAt_update, hvalue] at hupdate
    simpa using hupdate
  exact ext_of_coeff ((vars_remap a n _).trans hvars.symm) hcoeff rfl

theorem remap_range_words (h : a.Difference n bound) : @remap .word64 a n (List.range n) = a := by
  have hcoeffs : (@remap .word64 a n (List.range n)).coeffs = a.coeffs.map Arithmetic.wrap := by
    have hexact := congrArg Affine.coeffs (remap_range h.vars)
    rw [← hexact]
    simp [remap]
  have hwrap : a.coeffs.map Arithmetic.wrap = a.coeffs := by
    rw [List.map_congr_left (g := id) fun x hx => ?_]
    · exact List.map_id _
    · have hunit := h.unit_of_mem hx
      exact Arithmetic.wrap_of_natAbs_lt (by omega)
  exact mk.injEq .. |>.mpr ⟨hcoeffs.trans hwrap, rfl⟩

theorem scale_one (a : Affine) : a.scale 1 = a := by
  simp [scale]

theorem sub_eq_add_neg (a b : Affine) : a.sub b = a.add b.neg := by
  simp [sub, add, Affine.neg, scale, List.zipWith_map_right, Int.sub_eq_add_neg]

theorem add_comm (a b : Affine) : a.add b = b.add a := by
  simp only [add, Arithmetic.fit_exact, Int.add_comm, mk.injEq, and_true]
  exact List.zipWith_comm_of_comm fun x y => Int.add_comm x y

/-- A variable that two differences mention alike cancels when one of them is taken from the other. -/
theorem sub_cancel (ha : a.Difference n bound) (hb : b.Difference n bound) {v : Nat}
    (hsame : a.coeff v = b.coeff v) (hne : a.coeff v ≠ 0) : (a.sub b).Difference n (2 * bound) := by
  have hunit := ha.unit v
  rw [sub_eq_add_neg]
  rcases (by omega : a.coeff v = 1 ∨ a.coeff v = -1) with hone | hone
  · exact ha.add_cancel hb.neg hone (by rw [coeff_neg]; omega)
  · rw [add_comm]
    exact hb.neg.add_cancel ha (by rw [coeff_neg]; omega) hone

theorem scale_unit (h : a.Difference n bound) {k : Int} (hk : k = 1 ∨ k = -1) :
    (a.scale k).Difference n bound := by
  rcases hk with rfl | rfl
  · rwa [scale_one]
  · exact h.neg

end Difference

end Affine

namespace Constraint

variable {n bound : Nat} {c r : Constraint}

theorem upright_words {a : Affine} (h : a.Difference n bound) (hbound : bound < 2 ^ 62) :
    @upright .word64 a = upright a := by
  unfold upright
  rw [h.neg_words hbound]

theorem difference_upright {a : Affine} (h : a.Difference n bound) : (upright a).Difference n bound := by
  rcases upright_eq a with heq | heq
  · rwa [heq]
  · rw [heq]
    exact h.neg

theorem reduce_words (h : c.form.Difference n bound) (hbound : bound < 2 ^ 62) :
    @reduce .word64 c = c.reduce := by
  obtain ⟨hgcd, hzero | hone⟩ := Arithmetic.gcdOf_words fun x (hx : x ∈ c.coeffs) => h.unit_of_mem hx
  · simp only [reduce, hgcd, hzero, if_true]
  · have hconst : c.const.natAbs ≤ bound := h.const
    rw [reduce_of_gcdOf hone (by simp) (by simp), @reduce_of_gcdOf .word64 c (hgcd.trans hone)
      (fun x hx => ?_) (Arithmetic.wrap_of_natAbs_lt (by omega)), upright_words h hbound]
    have hunit := h.unit_of_mem hx
    exact Arithmetic.wrap_of_natAbs_lt (by omega)

theorem difference_of_reduce (h : c.form.Difference n bound) (hr : c.reduce = .proper r) :
    r.form.Difference n bound := by
  obtain ⟨-, hzero | hone⟩ := Arithmetic.gcdOf_words fun x (hx : x ∈ c.coeffs) => h.unit_of_mem hx
  · simp only [reduce, hzero, if_true] at hr
    split at hr <;> split at hr <;> cases hr
  · rw [reduce_of_gcdOf hone (by simp) (by simp)] at hr
    obtain rfl := Reduced.proper.inj hr
    split
    · exact difference_upright h
    · exact h

end Constraint

end StreamLoom
