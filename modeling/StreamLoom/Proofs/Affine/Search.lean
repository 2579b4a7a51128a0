import Mathlib.Algebra.Order.Floor.Ring
import Mathlib.Data.Rat.Floor
import StreamLoom.Proofs.Affine.Bounds

/-!
# How a search ends

A search that does not refute every value has stopped for one of two reasons: either no variable is bounded,
or more values would have to be tried than the budget allows. `System.ending` is the search together with its
reason. The levels are none: a variable that has been fixed is not mentioned any more, so that there are always
more levels than variables left.

Where the rational solutions are bounded, so is every variable that is mentioned. A search which stops without
having exhausted its budget then has nothing left to fix, and the values on the way there are an integer solution.
-/

namespace StreamLoom

attribute [local instance] Arithmetic.exact

/-! ### Unbounded intervals -/

namespace Extended

private theorem max_int_ne_posInf {e : Extended} (he : e ≠ posInf) (x : Int) : e.max (.int x) ≠ posInf := by
  unfold max
  split
  · exact he
  · simp

private theorem min_int_ne_negInf {e : Extended} (he : e ≠ negInf) (x : Int) : e.min (.int x) ≠ negInf := by
  unfold min
  split
  · exact he
  · simp

end Extended

namespace System

private theorem foldl_tighten_ends (rows : List Constraint) (v : Nat) (ends : Extended × Extended)
    (hlower : ends.1 ≠ .posInf) (hupper : ends.2 ≠ .negInf) :
    (rows.foldl (tighten v) ends).1 ≠ .posInf ∧ (rows.foldl (tighten v) ends).2 ≠ .negInf := by
  induction rows generalizing ends with
  | nil => exact ⟨hlower, hupper⟩
  | cons r rest ih =>
    rw [List.foldl_cons]
    obtain ⟨lower, upper⟩ := ends
    simp only [tighten]
    split
    · exact ih _ hlower hupper
    · split
      · exact ih _ (Extended.max_int_ne_posInf hlower _) (Extended.min_int_ne_negInf hupper _)
      · split
        · exact ih _ (Extended.max_int_ne_posInf hlower _) hupper
        · exact ih _ hlower (Extended.min_int_ne_negInf hupper _)

/-- Neither end of the bounds of a variable is an infinity on the wrong side. -/
theorem ends_of_bounds {rows : System} {v : Nat} {interval : Interval}
    (h : rows.bounds v = some interval) : interval.lower ≠ .posInf ∧ interval.upper ≠ .negInf := by
  have hends := foldl_tighten_ends rows v (.negInf, .posInf) (by simp) (by simp)
  simp only [bounds, Interval.between?] at h
  split at h
  · cases h
    exact hends
  · cases h

/-- The bounds of a variable which lack an end leave room for integers of any size. -/
theorem exists_beyond_of_bounds {rows : System} {v : Nat} {interval : Interval}
    (h : rows.bounds v = some interval) (hends : interval.ends? = none) (size : ℚ) :
    ∃ t : Int, interval.contains t = true ∧ size < |(t : ℚ)| := by
  obtain ⟨hlower, hupper⟩ := ends_of_bounds h
  obtain ⟨lower, upper, hordered⟩ := interval
  have hsize : size < ((⌈|size|⌉ + 1 : Int) : ℚ) := by
    have hceil := Int.le_ceil |size|
    push_cast
    linarith [le_abs_self size]
  cases lower with
  | posInf => exact absurd rfl hlower
  | negInf =>
    cases upper with
    | negInf => exact absurd rfl hupper
    | posInf => exact ⟨_, by simp [Interval.contains], hsize.trans_le (le_abs_self _)⟩
    | int hi =>
      refine ⟨Min.min hi (-(⌈|size|⌉ + 1)), by simp [Interval.contains], hsize.trans_le ?_⟩
      refine le_trans ?_ (neg_le_abs _)
      have hle : (((Min.min hi (-(⌈|size|⌉ + 1)) : Int)) : ℚ) ≤ ((-(⌈|size|⌉ + 1) : Int) : ℚ) :=
        Int.cast_le.mpr (min_le_right _ _)
      push_cast at hle ⊢
      linarith
  | int lo =>
    cases upper with
    | negInf => exact absurd rfl hupper
    | int hi => simp [Interval.ends?] at hends
    | posInf =>
      refine ⟨Max.max lo (⌈|size|⌉ + 1), by simp [Interval.contains], hsize.trans_le ?_⟩
      exact (Int.cast_le.mpr (le_max_right _ _)).trans (le_abs_self _)

/-! ### Endings -/

inductive Ending where
  /-- There is no value left to be tried. -/
  | refuted
  /-- No variable is bounded. -/
  | assumed
  /-- There are more values to be tried than the budget allows. -/
  | exhausted
  /-- There is no level left. -/
  | unfinished
deriving DecidableEq, Repr

/-- Whether an ending counts as a solution. -/
def Ending.isFound (e : Ending) : Bool := e ≠ .refuted

/-- The system in which a variable has been fixed to a value. -/
def fixing (n : Nat) (rows : System) (v : Nat) (x : Int) : Option System :=
  (ofConstraints (rows ++ [.equal (.var n v) (.constant n x)])).bind (·.eliminate v)

/-- Tries as many consecutive values as the count says until one of them is not refuted. -/
def endingOfValues (attempt : Int → Int → Ending × Int) : Nat → Int → Int → Ending × Int
  | 0, _, budget => (.refuted, budget)
  | count + 1, x, budget =>
    let (ending, budget) := attempt x (budget - 1)
    if ending = .refuted then endingOfValues attempt count (x + 1) budget else (ending, budget)

/-- The ending of a search, and the budget that is left. -/
def ending (n : Nat) : Nat → System → Int → Ending × Int
  | 0, _, budget => (.unfinished, budget)
  | levels + 1, rows, budget =>
    match outlook n rows with
    | .infeasible => (.refuted, budget)
    | .unbounded => (.assumed, budget)
    | .narrowest b =>
      if b.upper - b.lower ≥ budget then (.exhausted, budget)
      else
        endingOfValues (fun x budget => (rows.fixing n b.var x).elim (.refuted, budget) fun rows =>
          ending n levels rows budget) (b.upper - b.lower + 1).toNat b.lower budget

private theorem tryValues_eq {attempt : Int → Int → Bool × Int} {attempt' : Int → Int → Ending × Int}
    (h : ∀ x budget, attempt x budget = ((attempt' x budget).1.isFound, (attempt' x budget).2))
    (count : Nat) (x budget : Int) : tryValues attempt count x budget =
      ((endingOfValues attempt' count x budget).1.isFound, (endingOfValues attempt' count x budget).2) := by
  induction count generalizing x budget with
  | zero => rfl
  | succ count ih =>
    rw [tryValues, endingOfValues, h]
    by_cases hrefuted : (attempt' x (budget - 1)).1 = .refuted
    · simp [Ending.isFound, hrefuted, ih]
    · simp [Ending.isFound, hrefuted]

/-- A search finds what it does not refute. -/
theorem search_eq_ending (n levels : Nat) (rows : System) (budget : Int) : search n levels rows budget =
    ((ending n levels rows budget).1.isFound, (ending n levels rows budget).2) := by
  induction levels generalizing rows budget with
  | zero => rfl
  | succ levels ih =>
    rw [search, ending]
    cases outlook n rows with
    | infeasible => rfl
    | unbounded => rfl
    | narrowest b =>
      simp only [Arithmetic.fit_exact]
      split
      · rfl
      · refine tryValues_eq (fun x budget => ?_) _ _ _
        cases hfixing : rows.fixing n b.var x with
        | none =>
          rw [fixing] at hfixing
          simp only [hfixing]
          rfl
        | some rows' =>
          rw [fixing] at hfixing
          simp only [hfixing]
          exact ih rows' budget

/-! ### Fixing a variable -/

theorem mentions_iff {rows : System} {v : Nat} : rows.mentions v = true ↔ ∃ r ∈ rows, r.coeff v ≠ 0 := by
  simp [mentions]

/-- A row that mentions a single variable and implies its value has it with a coefficient of one. -/
private theorem unit_of_implies {r : Constraint} (hlowest : r.Lowest) {v : Nat} {value : Int}
    (honly : ∀ w, w ≠ v → r.coeff w = 0) (h : ∀ x : Nat → Int, r.Admits x → x v = value) :
    r.equality = true ∧ (r.coeff v).natAbs = 1 := by
  have hunit := natAbs_coeff_of_lowest hlowest honly
  refine ⟨?_, hunit⟩
  by_contra hequality
  -- An inequality admits the value at which it becomes zero, and the next one.
  have hadmits : ∀ slack : Int, 0 ≤ slack → r.Admits fun _ => r.coeff v * (slack - r.const) := by
    intro slack hslack
    have hvalue : r.form.valueAt (fun _ => r.coeff v * (slack - r.const)) = slack := by
      have hsquare : r.coeff v * r.coeff v = 1 := by
        rcases Int.natAbs_eq (r.coeff v) with h | h <;> rw [h, hunit] <;> rfl
      rw [valueAt_of_only honly, Int.cast_id, Int.cast_id, ← mul_assoc, hsquare]
      ring
    rwa [Constraint.Admits, if_neg hequality, hvalue]
  have hzero := h _ (hadmits 0 le_rfl)
  have hone := h _ (hadmits 1 zero_le_one)
  have : r.coeff v = 0 := by linarith
  omega

section

variable {n v : Nat} {rows rows' : System} {x : Int}

private theorem coeff_fixed (hv : v < n) (w : Nat) :
    (Constraint.equal (.var n v) (.constant n x)).coeff w = if v = w then 1 else 0 := by
  have hcoeff : ((Affine.var n v).sub (.constant n x)).coeff w =
      (Affine.var n v).coeff w - (Affine.constant n x).coeff w := Affine.coeff_sub (by simp) w
  rw [Affine.coeff_var hv, Affine.coeff_constant, sub_zero] at hcoeff
  exact hcoeff

private theorem over_fixed (hover : Over n rows) :
    Over n (rows ++ [.equal (.var n v) (.constant n x)]) := by
  intro r hr
  rcases List.mem_append.mp hr with hr | hr
  · exact hover r hr
  · obtain rfl := List.mem_singleton.mp hr
    simp [Constraint.equal]

private theorem admits_fixed (hv : v < n) {K : Type} [CommRing K] [LinearOrder K] (y : Nat → K) :
    (Constraint.equal (.var n v) (.constant n x)).Admits y ↔ y v = x := by
  rw [Constraint.admits_equal (by simp), Affine.valueAt_var hv, Affine.valueAt_constant]

theorem fixing_projects (hover : Over n rows) (h : rows.fixing n v x = some rows') :
    Projects [v] (rows ++ [.equal (.var n v) (.constant n x)]) rows' := by
  obtain ⟨rows₁, hbuilt, heliminated⟩ := Option.bind_eq_some_iff.mp h
  have htightens := ofConstraints_tightens hbuilt
  exact ((Projects.ofTightens htightens).trans (eliminate_projects
    (htightens.width n (over_fixed hover)) heliminated)).congr_vars (by simp)

theorem fixing_over (hover : Over n rows) (h : rows.fixing n v x = some rows') : Over n rows' :=
  (fixing_projects hover h).width n (over_fixed hover)

theorem fixing_lowest (h : rows.fixing n v x = some rows') : ∀ r ∈ rows', r.Lowest := by
  obtain ⟨_, -, heliminated⟩ := Option.bind_eq_some_iff.mp h
  exact eliminate_lowest heliminated

/-- Among the integers, a solution of what is left can be completed by a value of the variable. -/
theorem solves_of_fixing (hover : Over n rows) (hv : v < n) (h : rows.fixing n v x = some rows')
    {y : Nat → Int} (hy : Solves y rows') : ∃ t, Solves (Function.update y v t) rows := by
  obtain ⟨rows₁, hbuilt, heliminated⟩ := Option.bind_eq_some_iff.mp h
  have htightens := ofConstraints_tightens hbuilt
  obtain ⟨r, hr, himplies, hcoeffs⟩ := htightens.retains (.equal (.var n v) (.constant n x)) (by simp)
    ⟨v, by simp [coeff_fixed hv]⟩
  have honly : ∀ w, w ≠ v → r.coeff w = 0 := fun w hw => by
    rw [hcoeffs, coeff_fixed hv, if_neg (Ne.symm hw)]
  obtain ⟨hequality, hunit⟩ := unit_of_implies (ofConstraints_lowest hbuilt r hr) honly
    fun y hadmits => (admits_fixed hv y).mp (himplies y hadmits)
  obtain ⟨t, ht⟩ := eliminate_lifts_of_unit (htightens.width n (over_fixed hover)) heliminated hr
    hequality hunit hy
  exact ⟨t, ((solves_append _ _ _).mp (htightens.complete _ ht)).1⟩

theorem mentions_of_fixing (hover : Over n rows) (hv : v < n) (h : rows.fixing n v x = some rows')
    {w : Nat} (hw : rows'.mentions w = true) : w ≠ v ∧ rows.mentions w = true := by
  have hprojects := fixing_projects hover h
  obtain ⟨r, hr, hne⟩ := mentions_iff.mp hw
  have hwv : w ≠ v := by
    rintro rfl
    exact hne (hprojects.gone w (by simp) r hr)
  refine ⟨hwv, ?_⟩
  by_contra hunmentioned
  refine hne (hprojects.unmentioned w (fun c hc => ?_) r hr)
  rcases List.mem_append.mp hc with hc | hc
  · by_contra hcoeff
    exact hunmentioned (mentions_iff.mpr ⟨c, hc, hcoeff⟩)
  · rw [List.mem_singleton.mp hc, coeff_fixed hv, if_neg (Ne.symm hwv)]

end

/-! ### Levels -/

/-- The number of variables that some row mentions. -/
def mentioned (n : Nat) (rows : System) : Nat := ((Finset.range n).filter (rows.mentions · = true)).card

theorem mentioned_le (n : Nat) (rows : System) : mentioned n rows ≤ n := by
  have hle := Finset.card_filter_le (Finset.range n) (rows.mentions · = true)
  rwa [Finset.card_range] at hle

theorem mentioned_fixing_lt {n v : Nat} {rows rows' : System} {x : Int} (hover : Over n rows) (hv : v < n)
    (hmentions : rows.mentions v = true) (h : rows.fixing n v x = some rows') :
    mentioned n rows' < mentioned n rows := by
  refine Finset.card_lt_card ((Finset.ssubset_iff_of_subset fun w hw => ?_).mpr ⟨v, ?_, fun hv' => ?_⟩)
  · rw [Finset.mem_filter] at hw ⊢
    exact ⟨hw.1, (mentions_of_fixing hover hv h hw.2).2⟩
  · simp [hv, hmentions]
  · exact (mentions_of_fixing hover hv h (Finset.mem_filter.mp hv').2).1 rfl

private theorem outlookFrom_narrowest {n : Nat} {rows : System} {vs : List Nat} {best : Option Branch}
    {b : Branch} (h : outlookFrom n rows vs best = .narrowest b) :
    best = some b ∨ b.var ∈ vs ∧ rows.mentions b.var = true := by
  induction vs generalizing best with
  | nil =>
    cases best with
    | none => cases h
    | some best =>
      cases h
      exact .inl rfl
  | cons v vs ih =>
    have hlater : ∀ {best}, outlookFrom n rows vs best = .narrowest b →
        best = some b ∨ b.var ∈ v :: vs ∧ rows.mentions b.var = true := fun h =>
      (ih h).imp_right fun hmem => ⟨List.mem_cons_of_mem v hmem.1, hmem.2⟩
    rw [outlookFrom] at h
    split at h
    · exact hlater h
    · rename_i hmentions
      split at h
      · cases h
      · split at h
        · exact hlater h
        · rename_i lo hi _
          refine (hlater h).elim (fun hbest => ?_) .inr
          obtain rfl := Option.some.inj hbest
          -- The narrower branch is the one that was best before, or the one of this variable.
          have hhere : v ∈ v :: vs ∧ rows.mentions v = true := ⟨by simp, by simpa using hmentions⟩
          unfold Branch.narrower
          split
          · exact .inr hhere
          · split
            · exact .inr hhere
            · exact .inl rfl

theorem branch_of_outlook {n : Nat} {rows : System} {b : Branch} (h : outlook n rows = .narrowest b) :
    b.var < n ∧ rows.mentions b.var = true := by
  rcases outlookFrom_narrowest h with hnone | ⟨hvar, hmentions⟩
  · cases hnone
  · exact ⟨List.mem_range.mp hvar, hmentions⟩

private theorem endingOfValues_congr {attempt attempt' : Int → Int → Ending × Int}
    (h : ∀ x budget, attempt x budget = attempt' x budget) (count : Nat) (x budget : Int) :
    endingOfValues attempt count x budget = endingOfValues attempt' count x budget := by
  rw [funext fun x => funext (h x)]

theorem exists_of_endingOfValues {attempt : Int → Int → Ending × Int} {count : Nat} {x budget : Int}
    {e : Ending} (h : (endingOfValues attempt count x budget).1 = e) (he : e ≠ .refuted) :
    ∃ y budget, (attempt y budget).1 = e := by
  induction count generalizing x budget with
  | zero => exact absurd h.symm he
  | succ count ih =>
    rw [endingOfValues] at h
    by_cases hrefuted : (attempt x (budget - 1)).1 = .refuted
    · simp only [hrefuted, if_true] at h
      exact ih h
    · simp only [if_neg hrefuted] at h
      exact ⟨x, budget - 1, h⟩

/-- What a search tries next has fewer variables. -/
private theorem attempt_cases {n : Nat} {rows : System} (hover : Over n rows) {b : Branch}
    (hb : outlook n rows = .narrowest b) (x : Int) : rows.fixing n b.var x = none ∨
      ∃ rows', rows.fixing n b.var x = some rows' ∧ Over n rows' ∧ mentioned n rows' < mentioned n rows := by
  obtain ⟨hvar, hmentions⟩ := branch_of_outlook hb
  cases hfixing : rows.fixing n b.var x with
  | none => exact .inl rfl
  | some rows' =>
    exact .inr ⟨rows', rfl, fixing_over hover hfixing, mentioned_fixing_lt hover hvar hmentions hfixing⟩

theorem ending_ne_unfinished {n levels : Nat} {rows : System} (hover : Over n rows)
    (hlevels : mentioned n rows < levels) (budget : Int) :
    (ending n levels rows budget).1 ≠ .unfinished := by
  induction levels generalizing rows budget with
  | zero => omega
  | succ levels ih =>
    intro h
    rw [ending] at h
    split at h
    · cases h
    · cases h
    · rename_i b hb
      split at h
      · cases h
      · obtain ⟨x, budget', hattempt⟩ := exists_of_endingOfValues h (by decide)
        rcases attempt_cases hover hb x with hnone | ⟨rows', hsome, hover', hless⟩
        · rw [hnone] at hattempt
          cases hattempt
        · rw [hsome] at hattempt
          exact ih hover' (by omega) budget' hattempt

/-- More levels than there are variables make no difference. -/
theorem ending_congr {n levels levels' : Nat} {rows : System} (hover : Over n rows)
    (hlevels : mentioned n rows < levels) (hlevels' : mentioned n rows < levels') (budget : Int) :
    ending n levels rows budget = ending n levels' rows budget := by
  induction levels generalizing levels' rows budget with
  | zero => omega
  | succ levels ih =>
    obtain ⟨levels', rfl⟩ := Nat.exists_eq_succ_of_ne_zero (by omega : levels' ≠ 0)
    rw [ending, ending]
    cases hb : outlook n rows with
    | infeasible => rfl
    | unbounded => rfl
    | narrowest b =>
      simp only
      split
      · rfl
      · refine endingOfValues_congr (fun x budget => ?_) _ _ _
        rcases attempt_cases hover hb x with hnone | ⟨rows', hsome, hover', hless⟩
        · rw [hnone]
          rfl
        · rw [hsome]
          exact ih hover' (by omega) (by omega) budget

/-! ### Bounded systems -/

/-- In every rational solution, the variables that are mentioned are no larger than a bound. -/
def BoundedBy (size : ℚ) (rows : System) : Prop :=
  ∀ x : Nat → ℚ, Solves x rows → ∀ v, rows.mentions v = true → |x v| ≤ size

theorem BoundedBy.fixing {n v : Nat} {rows rows' : System} {size : ℚ} {x : Int} (hover : Over n rows)
    (hv : v < n) (h : BoundedBy size rows) (hfixing : rows.fixing n v x = some rows') :
    BoundedBy size rows' := by
  intro y hy w hw
  obtain ⟨hne, hmentions⟩ := mentions_of_fixing hover hv hfixing hw
  obtain ⟨z, hz, hsolves⟩ := (fixing_projects hover hfixing).lifts y hy
  rw [← hz w (by simpa using hne)]
  exact h z ((solves_append _ _ _).mp hsolves).1 w hmentions

private theorem outlookFrom_unbounded {n : Nat} {rows : System} {vs : List Nat} {best : Option Branch}
    (h : outlookFrom n rows vs best = .unbounded) : best = none ∧ ∀ v ∈ vs, rows.mentions v = true →
      ∃ rows' interval, project rows ((List.range n).filter (· ≠ v)) = some rows' ∧
        rows'.bounds v = some interval ∧ interval.ends? = none := by
  induction vs generalizing best with
  | nil =>
    cases best with
    | none => exact ⟨rfl, by simp⟩
    | some best => cases h
  | cons v vs ih =>
    rw [outlookFrom] at h
    split at h
    · rename_i hunmentioned
      obtain ⟨hnone, hvs⟩ := ih h
      refine ⟨hnone, fun w hw hmentions => ?_⟩
      rcases List.mem_cons.mp hw with rfl | hw
      · simp [hmentions] at hunmentioned
      · exact hvs w hw hmentions
    · split at h
      · cases h
      · rename_i interval hbounds
        obtain ⟨rows', hproject, hbounds⟩ := Option.bind_eq_some_iff.mp hbounds
        split at h
        · rename_i hends
          obtain ⟨hnone, hvs⟩ := ih h
          refine ⟨hnone, fun w hw hmentions => ?_⟩
          rcases List.mem_cons.mp hw with rfl | hw
          · exact ⟨rows', interval, hproject, hbounds, hends⟩
          · exact hvs w hw hmentions
        · obtain ⟨hnone, -⟩ := ih h
          cases hnone

theorem eq_nil_of_outlook {n : Nat} {rows : System} {size : ℚ} (hover : Over n rows)
    (hlowest : ∀ r ∈ rows, r.Lowest) (hbounded : BoundedBy size rows)
    (h : outlook n rows = .unbounded) : rows = [] := by
  have hunmentioned : ∀ v, v < n → rows.mentions v ≠ true := by
    intro v hv hmentions
    obtain ⟨rows', interval, hproject, hbounds, hends⟩ :=
      (outlookFrom_unbounded h).2 v (List.mem_range.mpr hv) hmentions
    obtain ⟨t, ht, hsize⟩ := exists_beyond_of_bounds hbounds hends size
    have hprojects := project_projects hover hproject
    have honly : Only v rows' := only_of_projects hover (fun w hw hne => by simp [hw, hne]) hprojects
    have hrows := solves_of_bounds (project_lowest hproject) honly hbounds (x := fun _ => t) ht
    obtain ⟨x, hx, hsolves⟩ := hprojects.lifts (fun _ => (t : ℚ))
      ((solves_intCast (fun _ => t) rows').mpr hrows)
    have hle := hbounded x hsolves v hmentions
    rw [hx v (by simp)] at hle
    exact absurd hle (not_le.mpr hsize)
  refine List.eq_nil_iff_forall_not_mem.mpr fun r hr => ?_
  have hzero : ∀ v, r.coeff v = 0 := by
    intro v
    by_contra hne
    have hvars : r.form.vars = n := hover r hr
    by_cases hv : v < n
    · exact hunmentioned v hv (mentions_iff.mpr ⟨r, hr, hne⟩)
    · exact hne (Affine.coeff_of_le (by omega))
  have htwo : (2 : Int) ∣ 1 := hlowest r hr 2 fun v => by simp [hzero v]
  omega

/-- In a bounded system, a search only assumes what there is. -/
theorem exists_solves_of_ending {n levels : Nat} {rows : System} {budget : Int} {size : ℚ}
    (hover : Over n rows) (hlowest : ∀ r ∈ rows, r.Lowest) (hbounded : BoundedBy size rows)
    (h : (ending n levels rows budget).1 = .assumed) : ∃ x : Nat → Int, Solves x rows := by
  induction levels generalizing rows budget with
  | zero => cases h
  | succ levels ih =>
    rw [ending] at h
    split at h
    · cases h
    · rename_i houtlook
      rw [eq_nil_of_outlook hover hlowest hbounded houtlook]
      exact ⟨fun _ => 0, solves_nil _⟩
    · rename_i b hb
      split at h
      · cases h
      · obtain ⟨x, budget', hattempt⟩ := exists_of_endingOfValues h (by decide)
        obtain ⟨hvar, -⟩ := branch_of_outlook hb
        cases hfixing : rows.fixing n b.var x with
        | none =>
          rw [hfixing] at hattempt
          cases hattempt
        | some rows' =>
          rw [hfixing] at hattempt
          obtain ⟨y, hy⟩ := ih (fixing_over hover hfixing) (fixing_lowest hfixing)
            (hbounded.fixing hover hvar hfixing) hattempt
          obtain ⟨t, ht⟩ := solves_of_fixing hover hvar hfixing hy
          exact ⟨_, ht⟩

end System

end StreamLoom
