import StreamLoom.Affine.Search
import StreamLoom.Proofs.Affine.Elimination

/-!
# Bounds of variables

Once a system mentions a single variable, its bounds are exactly the integer solutions. In lowest
terms an equality on one variable has a coefficient of one, which is why rounding does no harm.

The search for integer solutions rests on these bounds. It never denies a solution that exists.
-/

namespace StreamLoom

attribute [local instance] Arithmetic.exact

namespace Extended

theorem max_le_iff {a b c : Extended} : a.max b ≤ c ↔ a ≤ c ∧ b ≤ c := by
  unfold max
  split
  · rename_i hba
    exact ⟨fun h => ⟨h, le_trans hba h⟩, fun h => h.1⟩
  · rename_i hba
    have hab := (le_total a b).resolve_right hba
    exact ⟨fun h => ⟨le_trans hab h, h⟩, fun h => h.2⟩

theorem le_min_iff {a b c : Extended} : c ≤ a.min b ↔ c ≤ a ∧ c ≤ b := by
  unfold min
  split
  · rename_i hab
    exact ⟨fun h => ⟨h, le_trans h hab⟩, fun h => h.1⟩
  · rename_i hab
    have hba := (le_total a b).resolve_left hab
    exact ⟨fun h => ⟨le_trans h hba, h⟩, fun h => h.2⟩

end Extended

namespace Interval

theorem contains_iff {i : Interval} {t : Int} :
    i.contains t = true ↔ i.lower ≤ .int t ∧ .int t ≤ i.upper := by
  simp [contains]

theorem contains_of_ends? {i : Interval} {lo hi t : Int} (h : i.ends? = some (lo, hi)) :
    i.contains t = true ↔ lo ≤ t ∧ t ≤ hi := by
  rw [contains_iff]
  unfold ends? at h
  split at h
  · rename_i hlower hupper
    obtain ⟨rfl, rfl⟩ : _ = lo ∧ _ = hi := by simpa using h
    rw [hlower, hupper]
    simp
  · simp at h

end Interval

namespace System

/-- Rows that mention no variable but one. -/
def Only (v : Nat) (rows : List Constraint) : Prop := ∀ r ∈ rows, ∀ w, w ≠ v → r.coeff w = 0

theorem valueAt_of_only {K : Type} [CommRing K] {r : Constraint} {v : Nat}
    (honly : ∀ w, w ≠ v → r.coeff w = 0) (x : Nat → K) :
    r.form.valueAt x = r.const + r.coeff v * x v := by
  have hupdate := Affine.valueAt_update r.form v (x v) (fun _ => (0 : K))
  have hcongr : r.form.valueAt x = r.form.valueAt (Function.update (fun _ => (0 : K)) v (x v)) := by
    apply Affine.valueAt_congr
    intro i hi
    by_cases hiv : i = v
    · simp [hiv]
    · exact absurd (honly i hiv) hi
  have hzero : Affine.linear r.form.coeffs (fun _ => (0 : K)) = 0 := by
    generalize r.form.coeffs = as
    induction as with
    | nil => rfl
    | cons a as ih => simp [ih]
  rw [hcongr, hupdate, Affine.valueAt, hzero]
  simp [Constraint.coeff, Constraint.const]

/-- An equality on a single variable has it with a coefficient of one. -/
theorem natAbs_coeff_of_lowest {r : Constraint} (hlowest : r.Lowest) {v : Nat}
    (honly : ∀ w, w ≠ v → r.coeff w = 0) : (r.coeff v).natAbs = 1 := by
  have hdvd : r.coeff v ∣ 1 := by
    refine hlowest (r.coeff v) fun w => ?_
    by_cases hw : w = v
    · rw [hw]
    · rw [honly w hw]
      exact Int.dvd_zero _
  exact Int.isUnit_iff_natAbs_eq.mp (isUnit_of_dvd_one hdvd)

private theorem tighten_iff {r : Constraint} (hlowest : r.Lowest) {v : Nat}
    (honly : ∀ w, w ≠ v → r.coeff w = 0) (lower upper : Extended) (x : Nat → Int) :
    ((tighten v (lower, upper) r).1 ≤ .int (x v) ∧ .int (x v) ≤ (tighten v (lower, upper) r).2) ↔
      (lower ≤ .int (x v) ∧ .int (x v) ≤ upper) ∧ r.Admits x := by
  have hunit := natAbs_coeff_of_lowest hlowest honly
  have hne : r.coeff v ≠ 0 := by omega
  have hvalue : r.form.valueAt x = r.const + r.coeff v * x v := by
    simpa using valueAt_of_only honly x
  simp only [tighten, if_neg hne, Constraint.Admits, hvalue, Arithmetic.truncDiv,
    Arithmetic.ceilDiv, Arithmetic.floorDiv, Arithmetic.fit_exact]
  have hcases : r.coeff v = 1 ∨ r.coeff v = -1 := by omega
  split
  · rw [Extended.max_le_iff, Extended.le_min_iff, Extended.int_le_int, Extended.int_le_int]
    have hroot : (-r.const).tdiv (r.coeff v) ≤ x v ∧ x v ≤ (-r.const).tdiv (r.coeff v) ↔
        r.const + r.coeff v * x v = 0 := by
      rcases hcases with h | h <;> rw [h] <;> simp <;> omega
    rw [← hroot]
    tauto
  · split
    · have hone : r.coeff v = 1 := by omega
      rw [Extended.max_le_iff, Extended.int_le_int, hone]
      have hroot : -Int.fdiv (- -r.const) 1 ≤ x v ↔ 0 ≤ r.const + 1 * x v := by
        simp
        omega
      rw [hroot]
      tauto
    · have hone : r.coeff v = -1 := by omega
      rw [Extended.le_min_iff, Extended.int_le_int, hone]
      have hroot : x v ≤ r.const.fdiv (- -1) ↔ 0 ≤ r.const + -1 * x v := by
        simp
      rw [hroot]
      tauto

private theorem foldl_tighten_iff {rows : List Constraint} {v : Nat} (hlowest : ∀ r ∈ rows, r.Lowest)
    (honly : Only v rows) (lower upper : Extended) (x : Nat → Int) :
    ((rows.foldl (tighten v) (lower, upper)).1 ≤ .int (x v) ∧
      .int (x v) ≤ (rows.foldl (tighten v) (lower, upper)).2) ↔
      (lower ≤ .int (x v) ∧ .int (x v) ≤ upper) ∧ Solves x rows := by
  induction rows generalizing lower upper with
  | nil => simp
  | cons r rest ih =>
    rw [List.foldl_cons, ih (fun r hr => hlowest r (by simp [hr])) (fun r hr => honly r (by simp [hr])),
      tighten_iff (hlowest r (by simp)) (honly r (by simp)), solves_cons, and_assoc]

theorem bounds_of_solves {rows : System} {v : Nat} (hlowest : ∀ r ∈ rows, r.Lowest)
    (honly : Only v rows) {x : Nat → Int} (hx : Solves x rows) :
    ∃ interval, rows.bounds v = some interval ∧ interval.contains (x v) = true := by
  have hends := (foldl_tighten_iff hlowest honly .negInf .posInf x).mpr ⟨by simp, hx⟩
  have hordered := Extended.le_trans hends.1 hends.2
  refine ⟨⟨_, _, hordered⟩, ?_, ?_⟩
  · simp [bounds, Interval.between?, hordered]
  · rwa [Interval.contains_iff]

theorem solves_of_bounds {rows : System} {v : Nat} (hlowest : ∀ r ∈ rows, r.Lowest)
    (honly : Only v rows) {interval : Interval} (h : rows.bounds v = some interval) {x : Nat → Int}
    (hx : interval.contains (x v) = true) : Solves x rows := by
  simp only [bounds, Interval.between?] at h
  split at h
  · obtain rfl := Option.some.inj h
    rw [Interval.contains_iff] at hx
    exact ((foldl_tighten_iff hlowest honly .negInf .posInf x).mp hx).2
  · simp at h

/-! ### Search -/

/-- Eliminating all other variables leaves rows that mention one. -/
theorem only_of_projects {n : Nat} {cs rows : List Constraint} {v : Nat} {vars : List Nat}
    (hover : Over n cs) (hvars : ∀ w, w < n → w ≠ v → w ∈ vars) (h : Projects vars cs rows) :
    Only v rows := by
  intro r hr w hw
  by_cases hlt : w < n
  · exact h.gone w (hvars w hlt hw) r hr
  · have hvarsr : r.vars = n := h.width n hover r hr
    exact Affine.coeff_of_le (by rw [← Constraint.vars.eq_def, hvarsr]; omega)

/-- Every solution of a system has the variable of a branch between its bounds. -/
private def Branch.Covers (n : Nat) (rows : System) (b : Branch) : Prop :=
  b.var < n ∧ ∀ x : Nat → Int, Solves x rows → b.lower ≤ x b.var ∧ x b.var ≤ b.upper

private def Outlook.Promises (n : Nat) (rows : System) : Outlook → Prop
  | infeasible => ∀ x : Nat → Int, ¬ Solves x rows
  | unbounded => True
  | narrowest b => b.Covers n rows

private theorem outlookFrom_promises {n : Nat} {rows : System} (hover : Over n rows) (vs : List Nat)
    (hvs : ∀ v ∈ vs, v < n) (best : Option Branch) (hbest : ∀ b, best = some b → b.Covers n rows) :
    (outlookFrom n rows vs best).Promises n rows := by
  induction vs generalizing best with
  | nil =>
    cases best with
    | none => exact trivial
    | some b => exact hbest b rfl
  | cons v vs ih =>
    have hnext := ih fun w hw => hvs w (by simp [hw])
    rw [outlookFrom]
    split
    · exact hnext best hbest
    · have hvars : ∀ w, w < n → w ≠ v → w ∈ (List.range n).filter (· ≠ v) := by
        intro w hlt hne
        simp [hlt, hne]
      cases hproject : project rows ((List.range n).filter (· ≠ v)) with
      | none => exact not_solves_of_project hover hproject
      | some rows' =>
        have hprojects := project_projects hover hproject
        have honly := only_of_projects hover hvars hprojects
        have hsolves : ∀ x : Nat → Int, Solves x rows →
            ∃ interval, rows'.bounds v = some interval ∧ interval.contains (x v) = true :=
          fun x hx => bounds_of_solves (project_lowest hproject) honly (hprojects.sound x hx)
        rw [Option.bind_some]
        split
        · rename_i hnone
          intro x hx
          obtain ⟨interval, hsome, _⟩ := hsolves x hx
          rw [hnone] at hsome
          simp at hsome
        · rename_i interval hsome
          split
          · exact hnext best hbest
          · rename_i lo hi hends
            have hcovers : (Branch.mk v lo hi).Covers n rows := by
              refine ⟨hvs v (by simp), fun x hx => ?_⟩
              obtain ⟨interval', hsome', hcontains⟩ := hsolves x hx
              rw [hsome] at hsome'
              obtain rfl := Option.some.inj hsome'
              exact (Interval.contains_of_ends? hends).mp hcontains
            refine hnext _ fun b hb => ?_
            obtain rfl := Option.some.inj hb
            unfold Branch.narrower
            split
            · exact hcovers
            · rename_i b'
              split
              · exact hcovers
              · exact hbest b' rfl

private theorem tryValues_false {attempt : Int → Int → Bool × Int} {P : Int → Prop}
    (hattempt : ∀ x budget, (attempt x budget).1 = false → P x) (count : Nat) (x budget : Int)
    (h : (tryValues attempt count x budget).1 = false) : ∀ k : Nat, k < count → P (x + k) := by
  induction count generalizing x budget with
  | zero => simp
  | succ count ih =>
    rw [tryValues] at h
    by_cases hfound : (attempt x (budget - 1)).1 = true
    · simp [hfound] at h
    · have hfalse : (attempt x (budget - 1)).1 = false := by simpa using hfound
      simp only [hfalse] at h
      intro k hk
      cases k with
      | zero => simpa using hattempt x _ hfalse
      | succ k =>
        have hnext := ih (x + 1) _ h k (by omega)
        have hshift : x + ((k + 1 : Nat) : Int) = x + 1 + k := by
          push_cast
          ring
        rwa [hshift]

private theorem search_sound {n : Nat} (levels : Nat) {rows : System} (hover : Over n rows)
    (budget : Int) (h : (search n levels rows budget).1 = false) (x : Nat → Int) :
    ¬ Solves x rows := by
  induction levels generalizing rows budget with
  | zero => simp [search] at h
  | succ levels ih =>
    have hspec := outlookFrom_promises hover (List.range n) (by simp) none (by simp)
    rw [search] at h
    unfold outlook at h
    split at h
    · rename_i houtlook
      rw [houtlook] at hspec
      exact hspec x
    · simp at h
    · rename_i v lo hi houtlook
      rw [houtlook] at hspec
      split at h
      · simp at h
      · intro hx
        obtain ⟨hv, hcovers⟩ := hspec
        obtain ⟨hlow, hhigh⟩ := hcovers x hx
        simp only at hv hlow hhigh
        -- the attempt with the value that the solution has would not have failed
        have hfailed := tryValues_false (P := fun value => x v ≠ value) ?_ _ lo budget h
          (x v - lo).toNat (by omega)
        · exact hfailed (by omega)
        intro value budget hattempt heq
        have hfixed : (Constraint.equal (.var n v) (.constant n value)).Admits x := by
          rw [Constraint.admits_equal (by simp), Affine.valueAt_var hv, Affine.valueAt_constant]
          simpa using heq
        have hover' : Over n (rows ++ [.equal (.var n v) (.constant n value)]) := by
          intro r hr
          rcases List.mem_append.mp hr with hr | hr
          · exact hover r hr
          · obtain rfl := List.mem_singleton.mp hr
            simp [Constraint.equal]
        have hx' : Solves x (rows ++ [.equal (.var n v) (.constant n value)]) := by
          rw [solves_append, solves_cons]
          exact ⟨hx, hfixed, solves_nil x⟩
        cases hbuilt : ofConstraints (rows ++ [.equal (.var n v) (.constant n value)]) with
        | none => exact not_solves_of_ofConstraints hbuilt x hx'
        | some rows₁ =>
          have htightens := ofConstraints_tightens hbuilt
          have hsolves₁ := htightens.sound x hx'
          simp only [hbuilt, Option.bind_some] at hattempt
          split at hattempt
          · rename_i hnone
            exact not_solves_of_eliminate (htightens.width n hover') hnone x hsolves₁
          · rename_i rows₂ hsome
            have hprojects := eliminate_projects (htightens.width n hover') hsome
            exact ih (hprojects.width n (htightens.width n hover')) budget hattempt
              (hprojects.sound x hsolves₁)

theorem not_solves_of_hasIntegerSolution {n : Nat} {rows : System} (hover : Over n rows)
    (h : hasIntegerSolution n rows = false) (x : Nat → Int) : ¬ Solves x rows :=
  search_sound (n + 1) hover searchBudget h x

end System

end StreamLoom
