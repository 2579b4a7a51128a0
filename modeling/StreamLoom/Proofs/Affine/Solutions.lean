import Mathlib.Algebra.Order.Ring.Cast
import StreamLoom.Proofs.Affine.Value

/-!
# Solutions of constraints

A valuation admits a constraint when the constraint holds there. Bringing constraints into lowest
terms keeps exactly the integer solutions. Over any other ordered ring it may lose some, since the
constant of an inequality is rounded, but it never gains one. Both directions are needed: the integers
show that no point is lost, and the rationals show that a shadow is never wider than it has to be.
-/

namespace StreamLoom

attribute [local instance] Arithmetic.exact

/-! ### Divisors -/

namespace Arithmetic

theorem abs_eq_natAbs (a : Int) : abs a = (a.natAbs : Int) := by
  unfold abs
  split
  · simp only [fit_exact]
    omega
  · omega

theorem euclid_eq_gcd (a b : Int) (ha : 0 ≤ a) (hb : 0 ≤ b) : euclid a b = (Int.gcd a b : Int) := by
  fun_induction euclid a b with
  | case1 a => simp [Int.natAbs_of_nonneg ha]
  | case2 a b hne ih =>
    have hmod : a.tmod b = a % b := Int.tmod_eq_emod_of_nonneg ha
    have hnonneg : 0 ≤ a.tmod b := by
      rw [hmod]
      exact Int.emod_nonneg a hne
    rw [ih hb hnonneg, hmod, Int.gcd_comm b, Int.gcd_emod]

theorem gcd_eq_gcd (a b : Int) : gcd a b = (Int.gcd a b : Int) := by
  rw [gcd, abs_eq_natAbs, abs_eq_natAbs, euclid_eq_gcd _ _ (by omega) (by omega)]
  rfl

private theorem foldl_gcd_spec (xs : List Int) (g : Int) (hg : 0 ≤ g) :
    0 ≤ xs.foldl gcd g ∧ xs.foldl gcd g ∣ g ∧ ∀ x ∈ xs, xs.foldl gcd g ∣ x := by
  induction xs generalizing g with
  | nil => simp [hg]
  | cons x xs ih =>
    rw [List.foldl_cons]
    obtain ⟨hnonneg, hdvd, hall⟩ := ih (gcd g x) (by rw [gcd_eq_gcd]; omega)
    have hleft : gcd g x ∣ g := by
      rw [gcd_eq_gcd]
      exact Int.gcd_dvd_left g x
    have hright : gcd g x ∣ x := by
      rw [gcd_eq_gcd]
      exact Int.gcd_dvd_right g x
    refine ⟨hnonneg, hdvd.trans hleft, ?_⟩
    intro y hy
    rcases List.mem_cons.mp hy with rfl | hy
    · exact hdvd.trans hright
    · exact hall y hy

theorem gcdOf_nonneg (xs : List Int) : 0 ≤ gcdOf xs := (foldl_gcd_spec xs 0 le_rfl).1

theorem gcdOf_dvd {xs : List Int} {x : Int} (hx : x ∈ xs) : gcdOf xs ∣ x :=
  (foldl_gcd_spec xs 0 le_rfl).2.2 x hx

private theorem dvd_foldl_gcd {d : Int} (xs : List Int) (g : Int) (hg : d ∣ g) (h : ∀ x ∈ xs, d ∣ x) :
    d ∣ xs.foldl gcd g := by
  induction xs generalizing g with
  | nil => exact hg
  | cons x xs ih =>
    rw [List.foldl_cons]
    refine ih (gcd g x) ?_ fun y hy => h y (by simp [hy])
    rw [gcd_eq_gcd]
    exact Int.dvd_coe_gcd hg (h x (by simp))

theorem dvd_gcdOf {d : Int} {xs : List Int} (h : ∀ x ∈ xs, d ∣ x) : d ∣ gcdOf xs :=
  dvd_foldl_gcd xs 0 (Int.dvd_zero d) h

theorem eq_zero_of_gcdOf_eq_zero {xs : List Int} (h : gcdOf xs = 0) : ∀ x ∈ xs, x = 0 := by
  intro x hx
  have hdvd := gcdOf_dvd hx
  rw [h] at hdvd
  exact Int.zero_dvd.mp hdvd

end Arithmetic

namespace Constraint

section

variable {K : Type} [CommRing K] [LinearOrder K]

def Admits (c : Constraint) (x : Nat → K) : Prop :=
  if c.equality then c.form.valueAt x = 0 else 0 ≤ c.form.valueAt x

@[simp] theorem admits_atLeast (a : Affine) (x : Nat → K) :
    (atLeast a).Admits x ↔ 0 ≤ a.valueAt x := by
  simp [Admits, atLeast]

@[simp] theorem admits_zero (a : Affine) (x : Nat → K) : (zero a).Admits x ↔ a.valueAt x = 0 := by
  simp [Admits, zero]

theorem admits_equal {l r : Affine} (hvars : l.vars = r.vars) (x : Nat → K) :
    (equal l r).Admits x ↔ l.valueAt x = r.valueAt x := by
  rw [equal, admits_zero, Affine.valueAt_sub hvars, sub_eq_zero]

@[simp] theorem admits_extend (c : Constraint) (k : Nat) (x : Nat → K) :
    (c.extend k).Admits x ↔ c.Admits x := by
  simp [Admits, extend]

theorem admits_remap (c : Constraint) (n : Nat) (places : List Nat)
    (hlength : c.vars ≤ places.length) (hplaces : ∀ p ∈ places, p < n) (x : Nat → K) :
    (c.remap n places).Admits x ↔ c.Admits fun i => x (places.getD i 0) := by
  simp [Admits, remap, Affine.valueAt_remap _ _ _ hlength hplaces]

theorem admits_congr {c : Constraint} {x y : Nat → K} (h : ∀ i, c.coeff i ≠ 0 → x i = y i) :
    c.Admits x ↔ c.Admits y := by
  rw [Admits, Admits, Affine.valueAt_congr h]

theorem admits_congr_of_lt {c : Constraint} {n : Nat} (hc : c.vars ≤ n) {x y : Nat → K}
    (h : ∀ i, i < n → x i = y i) : c.Admits x ↔ c.Admits y := by
  rw [Admits, Admits, Affine.valueAt_congr_of_lt hc h]

variable [IsStrictOrderedRing K]

theorem admits_le {l r : Affine} (hvars : r.vars = l.vars) (x : Nat → K) :
    (le l r).Admits x ↔ l.valueAt x ≤ r.valueAt x := by
  rw [le, admits_atLeast, Affine.valueAt_sub hvars, sub_nonneg]

@[simp] theorem not_admits_never (n : Nat) (x : Nat → K) : ¬ (never n).Admits x := by
  simp [never]

theorem admits_intCast (c : Constraint) (x : Nat → Int) :
    c.Admits (fun i => (x i : K)) ↔ c.Admits x := by
  simp [Admits, Affine.valueAt_intCast]

end

theorem admits_lt {l r : Affine} (hvars : r.vars = l.vars) (x : Nat → Int) :
    (lt l r).Admits x ↔ l.valueAt x < r.valueAt x := by
  rw [lt, admits_atLeast, Affine.valueAt_plus, Affine.valueAt_sub hvars]
  simp only [Int.cast_neg, Int.cast_one]
  omega

theorem admits_negate {c : Constraint} (hc : c.equality = false) (x : Nat → Int) :
    c.negate.Admits x ↔ ¬ c.Admits x := by
  rw [negate, admits_atLeast, Affine.valueAt_plus, Affine.valueAt_neg]
  rw [Admits, if_neg (by simp [hc])]
  simp only [Int.cast_neg, Int.cast_one]
  omega

theorem holds_iff (c : Constraint) (point : List Int) :
    c.holds point = true ↔ c.Admits (valuation point) := by
  unfold holds Admits
  rw [Affine.eval_eq_valueAt]
  split <;> simp

/-! ### Directions -/

theorem eq_of_parts {r r' : Constraint} (heq : r.equality = r'.equality)
    (hcoeffs : r.coeffs = r'.coeffs) (hconst : r.const = r'.const) : r = r' := by
  obtain ⟨⟨coeffs, const⟩, equality⟩ := r
  obtain ⟨⟨coeffs', const'⟩, equality'⟩ := r'
  simp only [Constraint.coeffs, Constraint.const] at hcoeffs hconst
  simp_all

/-- Rows of one direction differ by a constant only. -/
theorem valueAt_of_coeffs_eq {K : Type} [CommRing K] {r r' : Constraint}
    (h : r.coeffs = r'.coeffs) (x : Nat → K) :
    r.form.valueAt x = r'.form.valueAt x + ((r.const - r'.const : Int) : K) := by
  have hforms : r.form.coeffs = r'.form.coeffs := h
  simp only [Affine.valueAt, hforms, const]
  push_cast
  ring

theorem coeff_of_coeffs_eq {r r' : Constraint} (h : r.coeffs = r'.coeffs) (v : Nat) :
    r.coeff v = r'.coeff v := by
  have hforms : r.form.coeffs = r'.form.coeffs := h
  simp only [coeff, Affine.coeff, hforms]

/-! ### Lowest terms -/

@[simp] theorem vars_atLeast (a : Affine) : (atLeast a).vars = a.vars := rfl

@[simp] theorem vars_zero (a : Affine) : (zero a).vars = a.vars := rfl

theorem upright_eq (a : Affine) : upright a = a ∨ upright a = a.neg := by
  unfold upright
  split
  · split
    · exact .inr rfl
    · exact .inl rfl
  · exact .inl rfl

private theorem valueAt_upright_eq_zero {K : Type} [CommRing K] (a : Affine) (x : Nat → K) :
    (upright a).valueAt x = 0 ↔ a.valueAt x = 0 := by
  rcases upright_eq a with he | he
  · rw [he]
  · rw [he, Affine.valueAt_neg, neg_eq_zero]

private theorem dvd_coeff_upright {a : Affine} {d : Int} {v : Nat} :
    d ∣ (upright a).coeff v ↔ d ∣ a.coeff v := by
  rcases upright_eq a with he | he
  · rw [he]
  · rw [he, Affine.coeff_neg, dvd_neg]

private theorem vars_upright (a : Affine) : (upright a).vars = a.vars := by
  rcases upright_eq a with he | he <;> simp [he]

private def divided (a : Affine) (g const : Int) : Affine := ⟨a.coeffs.map (·.tdiv g), const⟩

private theorem coeff_divided {a : Affine} {g : Int} (const : Int)
    (hdvd : ∀ c ∈ a.coeffs, g ∣ c) (v : Nat) : g * (divided a g const).coeff v = a.coeff v := by
  by_cases hv : v < a.coeffs.length
  · have hmem : a.coeffs[v] ∈ a.coeffs := List.getElem_mem hv
    simpa [Affine.coeff, divided, List.getD_eq_getElem?_getD, hv] using
      Int.mul_tdiv_cancel' (hdvd _ hmem)
  · simp [Affine.coeff, divided, List.getD_eq_getElem?_getD,
      List.getElem?_eq_none (Nat.le_of_not_lt hv)]

private theorem linear_divided {K : Type} [CommRing K] {as : List Int} {g : Int}
    (hdvd : ∀ c ∈ as, g ∣ c) (x : Nat → K) :
    g * Affine.linear (as.map (·.tdiv g)) x = Affine.linear as x := by
  induction as generalizing x with
  | nil => simp
  | cons a as ih =>
    have hhead : g * a.tdiv g = a := Int.mul_tdiv_cancel' (hdvd a (by simp))
    have hcast : (g : K) * (a.tdiv g : Int) = a := by
      rw [← Int.cast_mul, hhead]
    rw [List.map_cons, Affine.linear_cons, Affine.linear_cons,
      ← ih (fun c hc => hdvd c (by simp [hc])), ← hcast]
    ring

private theorem valueAt_divided {K : Type} [CommRing K] {a : Affine} {g : Int}
    (hdvd : ∀ c ∈ a.coeffs, g ∣ c) (const : Int) (x : Nat → K) :
    g * (divided a g const).valueAt x = (g * const : Int) + Affine.linear a.coeffs x := by
  rw [Affine.valueAt, mul_add, ← linear_divided hdvd, Int.cast_mul]
  rfl

/-- A constraint without variables is decided by its constant. -/
def Settled (c : Constraint) : Prop := if c.equality then c.const = 0 else 0 ≤ c.const

/-- Everything that bringing a constraint into lowest terms can lead to. -/
theorem reduce_cases (c : Constraint) :
    (Arithmetic.gcdOf c.coeffs = 0 ∧ c.Settled ∧ c.reduce = .always) ∨
    (Arithmetic.gcdOf c.coeffs = 0 ∧ ¬ c.Settled ∧ c.reduce = .never) ∨
    ∃ g : Int, 0 < g ∧ ((∀ a ∈ c.coeffs, g ∣ a) ∧ ∀ d, (∀ a ∈ c.coeffs, d ∣ a) → d ∣ g) ∧
      ((c.equality = false ∧ c.reduce = .proper (atLeast (divided c.form g (c.const / g)))) ∨
      (c.equality = true ∧ ¬ g ∣ c.const ∧ c.reduce = .never) ∨
      (c.equality = true ∧ g ∣ c.const ∧
        c.reduce = .proper (zero (upright (divided c.form g (c.const.tdiv g)))))) := by
  by_cases hzero : Arithmetic.gcdOf c.coeffs = 0
  · by_cases hsettled : c.Settled
    · refine .inl ⟨hzero, hsettled, ?_⟩
      unfold Settled at hsettled
      split at hsettled <;> simp_all [reduce]
    · refine .inr (.inl ⟨hzero, hsettled, ?_⟩)
      unfold Settled at hsettled
      split at hsettled <;> simp_all [reduce]
  right; right
  have hnonneg := Arithmetic.gcdOf_nonneg c.coeffs
  refine ⟨Arithmetic.gcdOf c.coeffs, by omega,
    ⟨fun a ha => Arithmetic.gcdOf_dvd ha, fun d hd => Arithmetic.dvd_gcdOf hd⟩, ?_⟩
  by_cases heq : c.equality = true
  · by_cases hdvd : Arithmetic.gcdOf c.coeffs ∣ c.const
    · right; right
      have hmod : c.const.tmod (Arithmetic.gcdOf c.coeffs) = 0 := Int.tmod_eq_zero_of_dvd hdvd
      refine ⟨heq, hdvd, ?_⟩
      simp only [reduce, hzero, heq, hmod, if_false, Bool.not_true, Bool.false_eq_true, ne_eq,
        not_true_eq_false, divided, Arithmetic.truncDiv, Arithmetic.fit_exact]
      rfl
    · right; left
      have hmod : c.const.tmod (Arithmetic.gcdOf c.coeffs) ≠ 0 :=
        fun h => hdvd (Int.dvd_of_tmod_eq_zero h)
      refine ⟨heq, hdvd, ?_⟩
      simp [reduce, hzero, heq, hmod]
  · left
    have hdiv : c.const.fdiv (Arithmetic.gcdOf c.coeffs) = c.const / Arithmetic.gcdOf c.coeffs :=
      Int.fdiv_eq_ediv_of_nonneg _ hnonneg
    have hfalse : c.equality = false := by simpa using heq
    refine ⟨hfalse, ?_⟩
    simp only [reduce, hzero, hfalse, if_false, Bool.not_false, if_true, divided,
      Arithmetic.truncDiv, Arithmetic.floorDiv, Arithmetic.fit_exact, hdiv]
    rfl

/-- A constraint that has lowest terms is divided by the greatest common divisor of its coefficients. -/
theorem reduce_proper_cases {c r : Constraint} (h : c.reduce = .proper r) :
    ∃ g : Int, 0 < g ∧ (∀ a ∈ c.coeffs, g ∣ a) ∧ (∀ d, (∀ a ∈ c.coeffs, d ∣ a) → d ∣ g) ∧
      ((c.equality = false ∧ r = atLeast (divided c.form g (c.const / g))) ∨
      (c.equality = true ∧ g ∣ c.const ∧ r = zero (upright (divided c.form g (c.const.tdiv g))))) := by
  rcases c.reduce_cases with ⟨-, -, hr⟩ | ⟨-, -, hr⟩ | ⟨g, hg, ⟨hdvd, hgreatest⟩, hcases⟩
  · cases hr.symm.trans h
  · cases hr.symm.trans h
  · refine ⟨g, hg, hdvd, hgreatest, ?_⟩
    rcases hcases with ⟨heq, hr⟩ | ⟨-, -, hr⟩ | ⟨heq, hconst, hr⟩
    · exact .inl ⟨heq, Reduced.proper.inj (h.symm.trans hr)⟩
    · cases hr.symm.trans h
    · exact .inr ⟨heq, hconst, Reduced.proper.inj (h.symm.trans hr)⟩

private theorem valueAt_of_gcd_zero {K : Type} [CommRing K] {c : Constraint}
    (h : Arithmetic.gcdOf c.coeffs = 0) (x : Nat → K) : c.form.valueAt x = c.const := by
  have hlinear : Affine.linear c.form.coeffs x = Affine.linear c.form.coeffs fun _ => 0 := by
    apply Affine.linear_congr
    intro i hi
    have hlt : i < c.form.coeffs.length := by
      by_contra hle
      simp [List.getD_eq_getElem?_getD, List.getElem?_eq_none (Nat.le_of_not_lt hle)] at hi
    have hzero := Arithmetic.eq_zero_of_gcdOf_eq_zero h _ (List.getElem_mem hlt)
    simp [List.getD_eq_getElem?_getD, hlt, hzero] at hi
  have hvanish : ∀ as : List Int, Affine.linear as (fun _ => (0 : K)) = 0 := by
    intro as
    induction as with
    | nil => rfl
    | cons a as ih => simp [ih]
  rw [Affine.valueAt, hlinear, hvanish, add_zero]
  rfl

theorem coeff_eq_zero_of_reduce_always {c : Constraint} (h : c.reduce = .always) (v : Nat) :
    c.coeff v = 0 := by
  rcases c.reduce_cases with ⟨hzero, _, _⟩ | ⟨_, _, hr⟩ | ⟨g, _, _, ⟨_, hr⟩ | ⟨_, _, hr⟩ |
    ⟨_, _, hr⟩⟩
  · by_cases hv : v < c.form.coeffs.length
    · have hmem : c.form.coeffs[v] ∈ c.coeffs := List.getElem_mem hv
      simpa [coeff, Affine.coeff, List.getD_eq_getElem?_getD, hv] using
        Arithmetic.eq_zero_of_gcdOf_eq_zero hzero _ hmem
    · exact Affine.coeff_of_le (Nat.le_of_not_lt hv)
  all_goals
    rw [hr] at h
    simp at h

section

variable {K : Type} [CommRing K] [LinearOrder K] [IsStrictOrderedRing K]

private theorem admits_of_gcd_zero {c : Constraint} (h : Arithmetic.gcdOf c.coeffs = 0)
    (x : Nat → K) : c.Admits x ↔ c.Settled := by
  rw [Admits, valueAt_of_gcd_zero h, Settled]
  split
  · exact Int.cast_eq_zero
  · exact Int.cast_nonneg_iff

theorem admits_of_reduce_always {c : Constraint} (h : c.reduce = .always) (x : Nat → K) :
    c.Admits x := by
  rcases c.reduce_cases with ⟨hzero, hsettled, _⟩ | ⟨_, _, hr⟩ | ⟨g, _, _, ⟨_, hr⟩ | ⟨_, _, hr⟩ |
    ⟨_, _, hr⟩⟩
  · exact (admits_of_gcd_zero hzero x).mpr hsettled
  all_goals
    rw [hr] at h
    simp at h

private theorem admits_zero_divided {c : Constraint} {g : Int} (hg : 0 < g) (hdvd : ∀ a ∈ c.coeffs, g ∣ a)
    (heq : c.equality = true) (hconst : g ∣ c.const) (x : Nat → K) :
    (zero (upright (divided c.form g (c.const.tdiv g)))).Admits x ↔ c.Admits x := by
  have hscaled : g * (divided c.form g (c.const.tdiv g)).valueAt x = c.form.valueAt x := by
    rw [valueAt_divided hdvd, Int.mul_tdiv_cancel' hconst]
    rfl
  have hne : (g : K) ≠ 0 := Int.cast_ne_zero.mpr hg.ne'
  rw [admits_zero, valueAt_upright_eq_zero, Admits, if_pos heq, ← hscaled, mul_eq_zero, or_iff_right hne]

/-- A valuation that admits a constraint in lowest terms admits the constraint itself. -/
theorem admits_of_reduce_proper {c r : Constraint} (h : c.reduce = .proper r) {x : Nat → K}
    (hx : r.Admits x) : c.Admits x := by
  obtain ⟨g, hg, hdvd, -, ⟨heq, rfl⟩ | ⟨heq, hconst, rfl⟩⟩ := reduce_proper_cases h
  · have hround : ((g * (c.const / g) : Int) : K) ≤ (c.const : Int) :=
      Int.cast_le.mpr (Int.mul_ediv_self_le hg.ne')
    have hscaled : (0 : K) ≤ g * (divided c.form g (c.const / g)).valueAt x :=
      mul_nonneg (Int.cast_nonneg hg.le) ((admits_atLeast _ _).mp hx)
    rw [valueAt_divided hdvd] at hscaled
    simp only [Admits, heq]
    exact hscaled.trans (add_le_add hround le_rfl)
  · exact (admits_zero_divided hg hdvd heq hconst x).mp hx

end

/-- Over the integers nothing is lost in lowest terms. -/
theorem reduce_proper_admits {c r : Constraint} (h : c.reduce = .proper r) {x : Nat → Int}
    (hx : c.Admits x) : r.Admits x := by
  obtain ⟨g, hg, hdvd, -, ⟨heq, rfl⟩ | ⟨heq, hconst, rfl⟩⟩ := reduce_proper_cases h
  · have hvalue : 0 ≤ c.const + Affine.linear c.coeffs x := by
      simpa [Admits, heq, Affine.valueAt, const, coeffs] using hx
    have hscaled : g * (divided c.form g (c.const / g)).valueAt x =
        g * (c.const / g) + Affine.linear c.coeffs x := by
      simpa [coeffs] using valueAt_divided hdvd (c.const / g) x
    have hround : c.const < g * (c.const / g) + g := Int.lt_mul_ediv_self_add hg
    -- What was rounded off is less than a multiple of `g`.
    have hlt : g * -1 < g * (divided c.form g (c.const / g)).valueAt x := by linarith
    rw [admits_atLeast]
    exact Int.add_one_le_of_lt (lt_of_mul_lt_mul_left hlt hg.le)
  · exact (admits_zero_divided hg hdvd heq hconst x).mpr hx

theorem not_admits_of_reduce_never {c : Constraint} (h : c.reduce = .never) (x : Nat → Int) :
    ¬ c.Admits x := by
  rcases c.reduce_cases with ⟨_, _, hr⟩ | ⟨hzero, hsettled, _⟩ | ⟨g, _, ⟨hdvd, _⟩, ⟨_, hr⟩ |
    ⟨heq, hconst, _⟩ | ⟨_, _, hr⟩⟩
  · rw [hr] at h
    simp at h
  · rwa [admits_of_gcd_zero hzero]
  · rw [hr] at h
    simp at h
  · intro hx
    have hvalue : c.const + Affine.linear c.coeffs x = 0 := by
      simpa [Admits, heq, Affine.valueAt, const, coeffs] using hx
    have hlinear : g * Affine.linear (c.coeffs.map (·.tdiv g)) x = Affine.linear c.coeffs x := by
      simpa using linear_divided hdvd x
    exact hconst ⟨-Affine.linear (c.coeffs.map (·.tdiv g)) x, by linarith⟩
  · rw [hr] at h
    simp at h

theorem reduce_proper_shape {c r : Constraint} (h : c.reduce = .proper r) :
    r.vars = c.vars ∧ r.equality = c.equality ∧ ∀ v, r.coeff v = 0 ↔ c.coeff v = 0 := by
  obtain ⟨g, hg, hdvd, -, hcases⟩ := reduce_proper_cases h
  have hvars : ∀ const : Int, (divided c.form g const).vars = c.vars := by
    intro const
    simp [vars, Affine.vars, divided]
  have hcoeff : ∀ (const : Int) (v : Nat), (divided c.form g const).coeff v = 0 ↔ c.coeff v = 0 := by
    intro const v
    rw [coeff, ← coeff_divided const hdvd v, mul_eq_zero, or_iff_right hg.ne']
  rcases hcases with ⟨heq, rfl⟩ | ⟨heq, -, rfl⟩
  · exact ⟨hvars _, heq.symm, hcoeff _⟩
  · refine ⟨(vars_upright _).trans (hvars _), heq.symm, fun v => ?_⟩
    rw [← hcoeff (c.const.tdiv g), ← zero_dvd_iff, ← zero_dvd_iff (a := (divided ..).coeff v)]
    exact dvd_coeff_upright

/-- The coefficients have no divisor in common but one. -/
def Lowest (c : Constraint) : Prop := ∀ g : Int, (∀ v, g ∣ c.coeff v) → g ∣ 1

theorem reduce_proper_lowest {c r : Constraint} (h : c.reduce = .proper r) : r.Lowest := by
  have hdivided : ∀ (g const : Int), 0 < g → (∀ a ∈ c.coeffs, g ∣ a) →
      (∀ d, (∀ a ∈ c.coeffs, d ∣ a) → d ∣ g) → ∀ d : Int,
      (∀ v, d ∣ (divided c.form g const).coeff v) → d ∣ 1 := by
    intro g const hg hdvd hgreatest d hd
    have hproduct : g * d ∣ g * 1 := by
      rw [mul_one]
      refine hgreatest (g * d) fun a ha => ?_
      obtain ⟨v, hv, rfl⟩ := List.getElem_of_mem ha
      have hcoeff := coeff_divided const hdvd v
      have hgetD : c.form.coeff v = c.coeffs[v] := by
        have hv' : v < c.form.coeffs.length := hv
        simp [Affine.coeff, List.getD_eq_getElem?_getD, hv', coeffs]
      rw [← hgetD, ← hcoeff]
      exact mul_dvd_mul_left g (hd v)
    exact (mul_dvd_mul_iff_left hg.ne').mp hproduct
  obtain ⟨g, hg, hdvd, hgreatest, ⟨-, rfl⟩ | ⟨-, -, rfl⟩⟩ := reduce_proper_cases h
  · exact hdivided g _ hg hdvd hgreatest
  · exact fun d hd => hdivided g _ hg hdvd hgreatest d fun v => dvd_coeff_upright.mp (hd v)

end Constraint

end StreamLoom
