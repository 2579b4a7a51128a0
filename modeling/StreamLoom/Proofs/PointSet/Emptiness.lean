import StreamLoom.Proofs.Affine.Search
import StreamLoom.Proofs.PointSet.Membership

/-!
# Emptiness over the integers

A set without integer points can have a rational shadow all the same. The search tells these sets apart, and
what it answers can be relied on: a set that is found to be empty has no point, and one that is not has a point
unless it is unbounded or the search gave up.
-/

namespace StreamLoom

attribute [local instance] Arithmetic.exact

open StreamLoom.System (Solves Over)

namespace PointSet

variable {s : PointSet}

/-- All dimensions and locals are within a bound in every rational solution. -/
def Bounded (s : PointSet) : Prop :=
  ∃ size : ℚ, ∀ x : Nat → ℚ, Solves x s.cons → ∀ i, i < s.vars → |x i| ≤ size

def ending (s : PointSet) : System.Ending :=
  if s.isEmpty then .refuted
  else match System.ofConstraints s.cons with
    | none => .refuted
    | some rows => (System.ending s.vars (s.vars + 1) rows System.searchBudget).1

theorem isIntegerEmpty_eq_ending (s : PointSet) : s.isIntegerEmpty = !s.ending.isFound := by
  unfold isIntegerEmpty ending
  cases s.isEmpty with
  | true => rfl
  | false =>
    cases System.ofConstraints s.cons with
    | none => rfl
    | some rows => simp [System.hasIntegerSolution, System.search_eq_ending]

/-- A search ends at once, or as it does for the system of the constraints. -/
private theorem ending_cases (s : PointSet) : s.ending = .refuted ∨
    ∃ rows, System.ofConstraints s.cons = some rows ∧
      s.ending = (System.ending s.vars (s.vars + 1) rows System.searchBudget).1 := by
  unfold ending
  split
  · exact .inl rfl
  · split
    · exact .inl rfl
    · rename_i rows hrows
      exact .inr ⟨rows, hrows, rfl⟩

theorem ending_ne_unfinished (hs : s.Regular) : s.ending ≠ .unfinished := by
  rcases s.ending_cases with hrefuted | ⟨rows, hrows, hending⟩
  · rw [hrefuted]
    decide
  · rw [hending]
    exact System.ending_ne_unfinished ((System.ofConstraints_tightens hrows).width s.vars hs)
      (Nat.lt_succ_of_le (System.mentioned_le s.vars rows)) System.searchBudget

/-- The system of a bounded set is bounded in every variable that it mentions. -/
private theorem exists_boundedBy (hs : s.Regular) (hbounded : s.Bounded) {rows : System}
    (hrows : System.ofConstraints s.cons = some rows) : ∃ size, System.BoundedBy size rows := by
  obtain ⟨size, hsize⟩ := hbounded
  have htightens := System.ofConstraints_tightens hrows
  refine ⟨size, fun x hx v hv => hsize x (htightens.complete x hx) v ?_⟩
  obtain ⟨r, hr, hne⟩ := System.mentions_iff.mp hv
  have hvars : r.form.vars = s.vars := htightens.width s.vars hs r hr
  by_contra hle
  exact hne (Affine.coeff_of_le (by omega))

/-- A bounded set has a point where the search only assumed that there is one. -/
theorem exists_includes_of_ending (hs : s.Regular) (hbounded : s.Bounded) (h : s.ending = .assumed) :
    ∃ p, s.Includes p := by
  rcases s.ending_cases with hrefuted | ⟨rows, hrows, hending⟩
  · rw [hrefuted] at h
    cases h
  · have htightens := System.ofConstraints_tightens hrows
    obtain ⟨size, hsize⟩ := exists_boundedBy hs hbounded hrows
    obtain ⟨x, hx⟩ := System.exists_solves_of_ending (htightens.width s.vars hs)
      (System.ofConstraints_lowest hrows) hsize (hending.symm.trans h)
    exact ⟨_, includes_coordinates hs (htightens.complete x hx)⟩

/-- The search for an integer point comes to an end, and no number of levels beyond that of the variables changes
what it answers. A set that is found to be empty has no point. A bounded set that is found to have one does have
one, unless the search exhausted its budget. -/
theorem isIntegerEmpty_decides (s : PointSet) (hs : s.Regular) :
    (s.ending ≠ .unfinished ∧ ∀ rows levels budget, Over s.vars rows → s.vars < levels →
      System.search s.vars levels rows budget = System.search s.vars (s.vars + 1) rows budget) ∧
    (s.isIntegerEmpty = true → ∀ p, ¬ s.Includes p) ∧
    (s.isIntegerEmpty = false → s.Bounded → s.ending ≠ .exhausted → ∃ p, s.Includes p) := by
  refine ⟨⟨ending_ne_unfinished hs, fun rows levels budget hover hlevels => ?_⟩, fun hempty p hp => ?_,
    fun hfound hbounded hbudget => exists_includes_of_ending hs hbounded ?_⟩
  · have hle := System.mentioned_le s.vars rows
    rw [System.search_eq_ending, System.search_eq_ending,
      System.ending_congr hover (hle.trans_lt hlevels) (Nat.lt_succ_of_le hle) budget]
  · exact not_has_of_isIntegerEmpty hs hempty _ ((includes_iff hs).mp hp).2
  · rw [isIntegerEmpty_eq_ending, Bool.not_eq_false'] at hfound
    cases h : s.ending with
    | refuted =>
      rw [h] at hfound
      cases hfound
    | assumed => rfl
    | exhausted => exact absurd h hbudget
    | unfinished => exact absurd h (ending_ne_unfinished hs)

/-- The pairs from one to six of which five times the first is one more than seven times the second. -/
def inverses : PointSet :=
  ⟨"s", 2, 0, [.zero ⟨[5, -7], -1⟩, .atLeast ⟨[1, 0], -1⟩, .atLeast ⟨[-1, 0], 6⟩]⟩

/-- The first value that is tried leaves no integer for the other coordinate. -/
theorem isIntegerEmpty_decides_inverses : inverses.Regular ∧ inverses.Bounded ∧
    inverses.isIntegerEmpty = false ∧ inverses.ending ≠ .exhausted ∧ ∃ p, inverses.Includes p := by
  have hregular : inverses.Regular := by
    change ∀ c ∈ inverses.cons, c.vars = inverses.vars
    decide
  have hbounded : inverses.Bounded := by
    refine ⟨6, fun x hx i hi => ?_⟩
    simp only [inverses, System.solves_cons, System.solves_nil, Constraint.admits_zero,
      Constraint.admits_atLeast, Affine.valueAt, Affine.linear_cons, Affine.linear_nil] at hx
    obtain ⟨htied, hlow, hhigh, -⟩ := hx
    push_cast at htied hlow hhigh
    have hcases : i = 0 ∨ i = 1 := by
      have : i < 2 := hi
      omega
    rcases hcases with rfl | rfl
    · exact abs_le.mpr ⟨by linarith, by linarith⟩
    · exact abs_le.mpr ⟨by linarith, by linarith⟩
  have hfound : inverses.isIntegerEmpty = false := by decide +kernel
  have hbudget : inverses.ending ≠ .exhausted := by decide +kernel
  exact ⟨hregular, hbounded, hfound, hbudget,
    (isIntegerEmpty_decides inverses hregular).2.2 hfound hbounded hbudget⟩

end PointSet

end StreamLoom
