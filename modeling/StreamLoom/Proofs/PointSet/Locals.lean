import Mathlib.Algebra.BigOperators.Group.List.Basic
import Mathlib.Algebra.BigOperators.Group.Finset.Basic
import StreamLoom.Proofs.PointSet.Membership

/-!
# Removing locals and dimensions

After variables have been eliminated, the constraints are written over those which are left. They are
listed by their places, and a constraint that mentions none but these has the same value as before.

Locals are removed only where that is exact, so that simplifying a set leaves its points alone. The
projection of a set is its rational shadow instead: it misses no point, and it keeps a trace of every
constraint that mentions none of the dimensions which are gone.
-/

namespace StreamLoom

attribute [local instance] Arithmetic.exact

open StreamLoom.System (Solves Over)

/-! ### Selected variables -/

namespace Affine

variable {K : Type} [CommRing K]

private theorem linear_map_places (places : List Nat) (f : Nat → Int) (x : Nat → K) :
    linear (places.map f) (fun i => x (places.getD i 0)) =
      (places.map fun v => (f v : K) * x v).sum := by
  induction places with
  | nil => rfl
  | cons p places ih =>
    simp only [List.map_cons, linear_cons, List.getD_cons_zero, List.getD_cons_succ,
      List.sum_cons]
    rw [ih]

/-- A form that mentions none but the listed variables can be written over these alone. -/
theorem valueAt_selected {a : Affine} {places : List Nat} (hnodup : places.Nodup)
    (hplaces : ∀ v, a.coeff v ≠ 0 → v ∈ places) (x : Nat → K) :
    (Affine.mk (places.map a.coeff) a.const).valueAt (fun i => x (places.getD i 0)) =
      a.valueAt x := by
  rw [valueAt, valueAt, linear_map_places, linear_eq_sum, ← List.sum_toFinset _ hnodup]
  congr 1
  have hzero : ∀ v, v ∉ places → ((a.coeff v : Int) : K) * x v = 0 := by
    intro v hv
    have : a.coeff v = 0 := by
      by_contra hne
      exact hv (hplaces v hne)
    simp [this]
  have houtside : ∀ v, v ∉ Finset.range a.coeffs.length → ((a.coeff v : Int) : K) * x v = 0 := by
    intro v hv
    have : a.coeff v = 0 := coeff_of_le (Nat.le_of_not_lt fun hlt => hv (Finset.mem_range.mpr hlt))
    simp [this]
  calc ∑ v ∈ places.toFinset, ((a.coeff v : Int) : K) * x v
      = ∑ v ∈ places.toFinset ∪ Finset.range a.coeffs.length, ((a.coeff v : Int) : K) * x v := by
        refine Finset.sum_subset Finset.subset_union_left fun v _ hv => hzero v ?_
        simpa using hv
    _ = ∑ v ∈ Finset.range a.coeffs.length, ((a.coeff v : Int) : K) * x v :=
        (Finset.sum_subset Finset.subset_union_right fun v _ hv => houtside v hv).symm

end Affine

namespace PointSet

section

variable {places : List Nat} {rows : List Constraint}

/-- The rows over the listed variables alone. -/
def reindexed (places : List Nat) (rows : List Constraint) : List Constraint :=
  rows.map fun c => { c with form := ⟨places.map c.coeff, c.const⟩ }

theorem over_reindexed (places : List Nat) (rows : List Constraint) :
    Over places.length (reindexed places rows) := by
  rw [reindexed, System.over_map]
  intro r _
  simp [Constraint.vars, Affine.vars]

theorem solves_reindexed {K : Type} [CommRing K] [LinearOrder K] (hnodup : places.Nodup)
    (hplaces : ∀ r ∈ rows, ∀ v, r.coeff v ≠ 0 → v ∈ places) (x : Nat → K) :
    Solves (fun i => x (places.getD i 0)) (reindexed places rows) ↔ Solves x rows := by
  simp only [reindexed, Solves, List.forall_mem_map]
  refine forall₂_congr fun r hr => ?_
  have hvalue := Affine.valueAt_selected hnodup (hplaces r hr) x
  simp only [Constraint.Admits]
  rw [show (Affine.mk (places.map r.coeff) r.const).valueAt (fun i => x (places.getD i 0)) =
    r.form.valueAt x from hvalue]

/-- The listed variables can take any values. -/
private theorem exists_at_places (hnodup : places.Nodup) (x : Nat → Int) :
    ∃ y : Nat → Int, ∀ i, i < places.length → y (places.getD i 0) = x i := by
  -- The value of a variable is found at the position where it is listed.
  refine ⟨fun v => x (places.idxOf v), fun i hi => ?_⟩
  change x (places.idxOf (places.getD i 0)) = x i
  rw [List.getD_eq_getElem?_getD, List.getElem?_eq_getElem hi, Option.getD_some,
    hnodup.idxOf_getElem i hi]

private theorem getD_range_append {d i : Nat} (hi : i < d) (kept : List Nat) :
    (List.range d ++ kept).getD i 0 = i := by
  rw [List.getD_eq_getElem?_getD, List.getElem?_append_left (by simpa using hi)]
  simp [hi]

end

/-! ### Locals -/

/-- What removing some locals does to the solutions of a system. -/
private structure Removes (n : Nat) (locals kept : List Nat) (rows rows' : System) : Prop where
  width : Over n rows'
  sublist : List.Sublist kept locals
  sound : ∀ x : Nat → Int, Solves x rows → Solves x rows'
  lifts : ∀ x : Nat → Int, Solves x rows' →
    ∃ y : Nat → Int, (∀ i, i ∉ locals → y i = x i) ∧ Solves y rows
  gone : ∀ l ∈ locals, l ∉ kept → ∀ r ∈ rows', r.coeff l = 0
  unmentioned : ∀ v, (∀ r ∈ rows, r.coeff v = 0) → ∀ r ∈ rows', r.coeff v = 0

section

variable {dims count : Nat} {kept : List Nat} {rows rows' : System}

private theorem Removes.nodup_places
    (h : Removes (dims + count) (List.range' dims count) kept rows rows') :
    (List.range dims ++ kept).Nodup := by
  refine List.nodup_append'.mpr ⟨List.nodup_range, h.sublist.nodup List.nodup_range', ?_⟩
  intro v hv hv'
  have hlocal := List.mem_range'_1.mp (h.sublist.subset hv')
  have hdim := List.mem_range.mp hv
  omega

private theorem Removes.mem_places
    (h : Removes (dims + count) (List.range' dims count) kept rows rows') {r : Constraint}
    (hr : r ∈ rows') {v : Nat} (hv : r.coeff v ≠ 0) : v ∈ List.range dims ++ kept := by
  by_contra hnot
  rw [List.mem_append, not_or, List.mem_range] at hnot
  apply hv
  by_cases hlocal : v < dims + count
  · exact h.gone v (List.mem_range'_1.mpr ⟨by omega, hlocal⟩) hnot.2 r hr
  · have hvars : r.form.vars = dims + count := h.width r hr
    exact Affine.coeff_of_le (by omega)

end

private theorem eliminate_lifts_of_isRemovable {n l : Nat} {rows rows' : System} (hover : Over n rows)
    (hremovable : isRemovable rows l = true) (h : rows.eliminate l = some rows') {x : Nat → Int}
    (hx : Solves x rows') : ∃ t, Solves (Function.update x l t) rows := by
  rw [isRemovable, Bool.or_eq_true] at hremovable
  rcases hremovable with hunit | hunmentioned
  · obtain ⟨r, hr, hunit⟩ := List.any_eq_true.mp hunit
    obtain ⟨hequality, hone⟩ := Bool.and_eq_true_iff.mp hunit
    have habs : (r.coeff l).natAbs = 1 := by
      rw [beq_iff_eq, Arithmetic.abs_eq_natAbs] at hone
      omega
    exact System.eliminate_lifts_of_unit hover h hr hequality habs hx
  · refine ⟨x l, ?_⟩
    rw [Function.update_eq_self]
    refine System.eliminate_lifts_of_unmentioned h ?_ hx
    simpa [System.mentions] using hunmentioned

private theorem removeLocals_removes {n : Nat} (locals : List Nat) {rows rows' : System}
    {kept : List Nat} (hover : Over n rows) (h : removeLocals locals rows = some (rows', kept)) :
    Removes n locals kept rows rows' := by
  induction locals generalizing rows rows' kept with
  | nil =>
    obtain ⟨rfl, rfl⟩ : rows = rows' ∧ [] = kept := by simpa [removeLocals] using h
    exact ⟨hover, List.Sublist.slnil, fun _ hx => hx, fun x hx => ⟨x, fun _ _ => rfl, hx⟩, by simp,
      fun _ hv => hv⟩
  | cons l ls ih =>
    rw [removeLocals] at h
    split at h
    · rename_i hremovable
      obtain ⟨rows₁, helim, hrest⟩ := Option.bind_eq_some_iff.mp h
      have hprojects := System.eliminate_projects hover helim
      have hremoves := ih (hprojects.width n hover) hrest
      refine ⟨hremoves.width, hremoves.sublist.cons l,
        fun x hx => hremoves.sound x (hprojects.sound x hx), ?_, ?_,
        fun v hv => hremoves.unmentioned v (hprojects.unmentioned v hv)⟩
      · intro x hx
        obtain ⟨y, hy, hsolves⟩ := hremoves.lifts x hx
        obtain ⟨t, ht⟩ := eliminate_lifts_of_isRemovable hover hremovable helim hsolves
        refine ⟨_, fun i hi => ?_, ht⟩
        rw [List.mem_cons, not_or] at hi
        rw [Function.update_of_ne hi.1, hy i hi.2]
      · intro l' hl' hkept
        rcases List.mem_cons.mp hl' with rfl | hl'
        · exact hremoves.unmentioned l' (hprojects.gone l' (by simp))
        · exact hremoves.gone l' hl' hkept
    · obtain ⟨⟨rows₁, kept₁⟩, hrest, hpair⟩ := Option.map_eq_some_iff.mp h
      obtain ⟨rfl, rfl⟩ : rows₁ = rows' ∧ l :: kept₁ = kept := by simpa using hpair
      have hremoves := ih hover hrest
      refine ⟨hremoves.width, hremoves.sublist.cons_cons l, hremoves.sound, ?_, ?_,
        hremoves.unmentioned⟩
      · intro x hx
        obtain ⟨y, hy, hsolves⟩ := hremoves.lifts x hx
        exact ⟨y, fun i hi => hy i fun hmem => hi (List.mem_cons_of_mem l hmem), hsolves⟩
      · intro l' hl' hkept
        rw [List.mem_cons, not_or] at hkept
        rcases List.mem_cons.mp hl' with rfl | hl'
        · exact absurd rfl hkept.1
        · exact hremoves.gone l' hl' hkept.2

private theorem not_solves_of_removeLocals {n : Nat} (locals : List Nat) {rows : System}
    (hover : Over n rows) (h : removeLocals locals rows = none) (x : Nat → Int) :
    ¬ Solves x rows := by
  induction locals generalizing rows with
  | nil => simp [removeLocals] at h
  | cons l ls ih =>
    rw [removeLocals] at h
    split at h
    · cases helim : rows.eliminate l with
      | none => exact System.not_solves_of_eliminate hover helim x
      | some rows₁ =>
        have hprojects := System.eliminate_projects hover helim
        rw [helim, Option.bind_some] at h
        exact fun hx => ih (hprojects.width n hover) h (hprojects.sound x hx)
    · exact ih hover (by simpa using h)

section

variable {s : PointSet}

@[simp] theorem dims_simplify : s.simplify.dims = s.dims := by
  unfold simplify
  split <;> rfl

private theorem simplify_cases (hs : s.Regular) :
    (s.simplify = .empty s.name s.dims ∧ ∀ x : Nat → Int, ¬ Solves x s.cons) ∨
    ∃ rows kept, s.simplify = { s with
        locals := kept.length
        cons := reindexed (List.range s.dims ++ kept) rows } ∧
      Removes s.vars (List.range' s.dims s.locals) kept s.cons rows := by
  cases hrows : System.ofConstraints s.cons with
  | none => exact .inl ⟨by simp [simplify, hrows], System.not_solves_of_ofConstraints hrows⟩
  | some rows =>
    have htightens := System.ofConstraints_tightens hrows
    cases hremove : removeLocals (List.range' s.dims s.locals) rows with
    | none =>
      refine .inl ⟨by simp [simplify, hrows, hremove], fun x hx => ?_⟩
      exact not_solves_of_removeLocals _ (htightens.width _ hs) hremove x (htightens.sound x hx)
    | some result =>
      obtain ⟨rows', kept⟩ := result
      have hremoves := removeLocals_removes _ (htightens.width _ hs) hremove
      refine .inr ⟨rows', kept, by simp [simplify, hrows, hremove, reindexed], hremoves.width,
        hremoves.sublist, fun x hx => hremoves.sound x (htightens.sound x hx), fun x hx => ?_,
        hremoves.gone, fun v hv => hremoves.unmentioned v (htightens.unmentioned v hv)⟩
      obtain ⟨y, hy, hsolves⟩ := hremoves.lifts x hx
      exact ⟨y, hy, htightens.complete y hsolves⟩

theorem regular_simplify (hs : s.Regular) : s.simplify.Regular := by
  rcases simplify_cases hs with ⟨hempty, -⟩ | ⟨rows, kept, hsome, -⟩
  · rw [hempty]
    intro c hc
    obtain rfl := List.mem_singleton.mp hc
    simp [Constraint.never, empty, vars]
  · rw [hsome]
    have hover := over_reindexed (List.range s.dims ++ kept) rows
    simpa [Regular, vars] using hover

/-- Removing locals leaves the points of a set alone. -/
theorem has_simplify (hs : s.Regular) {p : Nat → Int} : s.simplify.Has p ↔ s.Has p := by
  rcases simplify_cases hs with ⟨hempty, hnone⟩ | ⟨rows, kept, hsome, hremoves⟩
  · rw [hempty]
    constructor
    · rintro ⟨x, -, hsolves⟩
      exact absurd (hsolves _ (List.mem_singleton.mpr rfl)) (Constraint.not_admits_never _ x)
    · rintro ⟨x, -, hsolves⟩
      exact absurd hsolves (hnone x)
  · rw [hsome]
    have hnodup := hremoves.nodup_places
    have hplaces : ∀ r ∈ rows, ∀ v, r.coeff v ≠ 0 → v ∈ List.range s.dims ++ kept :=
      fun r hr v hv => hremoves.mem_places hr hv
    constructor
    · rintro ⟨x, hx, hsolves⟩
      obtain ⟨y, hlisted⟩ := exists_at_places hnodup x
      have hy : Solves y rows := by
        rw [← solves_reindexed hnodup hplaces]
        exact (System.solves_congr (over_reindexed _ rows) hlisted).mpr hsolves
      obtain ⟨z, hz, hsolves'⟩ := hremoves.lifts y hy
      refine ⟨z, fun i hi => ?_, hsolves'⟩
      have hdim : i < s.dims := hi
      have hlength : i < (List.range s.dims ++ kept).length := by
        rw [List.length_append, List.length_range]
        omega
      have hyi : y i = x i := by
        have := hlisted i hlength
        rwa [getD_range_append hdim] at this
      have hnotlocal : i ∉ List.range' s.dims s.locals := by
        rw [List.mem_range'_1]
        omega
      rw [hz i hnotlocal, hyi, hx i hi]
    · rintro ⟨x, hx, hsolves⟩
      refine ⟨fun i => x ((List.range s.dims ++ kept).getD i 0), fun i hi => ?_,
        (solves_reindexed hnodup hplaces x).mpr (hremoves.sound x hsolves)⟩
      have hdim : i < s.dims := hi
      simp only [getD_range_append hdim, hx i hdim]

end

/-! ### Projections -/

section

variable {s : PointSet} {dims : List Nat}

private theorem selected_eq (hnodup : dims.Nodup) (c : Constraint) :
    selected dims c = dims.map c.coeff := by
  apply List.ext_getElem
  · simp [selected]
  · intro i hi hi'
    have hlt : i < dims.length := by simpa using hi'
    have hnot : dims[i] ∉ dims.drop (i + 1) := by
      intro hmem
      obtain ⟨j, hj, heq⟩ := List.mem_iff_getElem.mp hmem
      rw [List.getElem_drop] at heq
      have := (List.Nodup.getElem_inj_iff hnodup).mp heq
      omega
    simp [selected, hnot]

private theorem projection_cases (hs : s.Regular) (hnodup : dims.Nodup) :
    (s.projection dims = .empty s.name dims.length ∧ ∀ x : Nat → Int, ¬ Solves x s.cons) ∨
    ∃ rows, s.projection dims = ⟨s.name, dims.length, 0, reindexed dims rows⟩ ∧
      System.Projects (s.others dims) s.cons rows ∧
      ∀ r ∈ rows, ∀ v, r.coeff v ≠ 0 → v ∈ dims := by
  cases hproject : System.project s.cons (s.others dims) with
  | none => exact .inl ⟨by simp [projection, hproject], System.not_solves_of_project hs hproject⟩
  | some rows =>
    have hprojects := System.project_projects hs hproject
    refine .inr ⟨rows, by simp [projection, hproject, reindexed, selected_eq hnodup], hprojects, ?_⟩
    intro r hr v hv
    by_contra hnot
    apply hv
    by_cases hlt : v < s.vars
    · exact hprojects.gone v (by simp [others, hlt, hnot]) r hr
    · have hvars : r.form.vars = s.vars := hprojects.width s.vars hs r hr
      exact Affine.coeff_of_le (by omega)

/-- The shadow of a set misses none of its points. -/
theorem solves_projection (hs : s.Regular) (hnodup : dims.Nodup) {x : Nat → Int}
    (hx : Solves x s.cons) : Solves (fun i => x (dims.getD i 0)) (s.projection dims).cons := by
  rcases projection_cases hs hnodup with ⟨-, hnone⟩ | ⟨rows, hrows, hprojects, hplaces⟩
  · exact absurd hx (hnone x)
  · rw [hrows]
    exact (solves_reindexed hnodup hplaces x).mpr (hprojects.sound x hx)

/-- Every rational point of a shadow is cast by a rational solution. -/
theorem exists_solves_of_projection (hs : s.Regular) (hnodup : dims.Nodup) {p : Nat → ℚ}
    (hp : Solves p (s.projection dims).cons) :
    ∃ x : Nat → ℚ, Solves x s.cons ∧ ∀ i, i < dims.length → x (dims.getD i 0) = p i := by
  rcases projection_cases hs hnodup with ⟨hempty, -⟩ | ⟨rows, hrows, hprojects, hplaces⟩
  · rw [hempty] at hp
    exact absurd (hp _ (List.mem_singleton.mpr rfl)) (Constraint.not_admits_never _ p)
  · rw [hrows] at hp
    let x : Nat → ℚ := fun v => p (dims.idxOf v)
    have hlisted : ∀ i, i < dims.length → x (dims.getD i 0) = p i := by
      intro i hi
      simp only [x]
      rw [List.getD_eq_getElem?_getD, List.getElem?_eq_getElem hi, Option.getD_some,
        hnodup.idxOf_getElem i hi]
    have hx : Solves x rows := by
      rw [← solves_reindexed hnodup hplaces]
      exact (System.solves_congr (over_reindexed dims rows) hlisted).mpr hp
    obtain ⟨y, hy, hsolves⟩ := hprojects.lifts x hx
    refine ⟨y, hsolves, fun i hi => ?_⟩
    have hmem : dims.getD i 0 ∈ dims := by
      rw [List.getD_eq_getElem?_getD, List.getElem?_eq_getElem hi]
      exact List.getElem_mem hi
    have hother : dims.getD i 0 ∉ s.others dims := by
      intro hothers
      have hnot := (List.mem_filter.mp hothers).2
      rw [List.contains_iff_mem.mpr hmem] at hnot
      cases hnot
    rw [hy _ hother, hlisted i hi]

theorem regular_projection (hs : s.Regular) (hnodup : dims.Nodup) :
    Over dims.length (s.projection dims).cons := by
  rcases projection_cases hs hnodup with ⟨hempty, -⟩ | ⟨rows, hrows, -⟩
  · rw [hempty]
    intro c hc
    obtain rfl := List.mem_singleton.mp hc
    simp [Constraint.never]
  · rw [hrows]
    exact over_reindexed dims rows

/-- A constraint that mentions none but the dimensions of a projection leaves a trace in it, unless
nothing is left at all. -/
theorem projection_retains (hs : s.Regular) (hnodup : dims.Nodup)
    (hproper : ∃ r ∈ (s.projection dims).cons, ∃ v, r.coeff v ≠ 0) {c : Constraint}
    (hc : c ∈ s.cons) (hdims : ∀ v, c.coeff v ≠ 0 → v ∈ dims) (hmentions : ∃ v, c.coeff v ≠ 0) :
    ∃ r ∈ (s.projection dims).cons,
      (∀ x : Nat → Int, r.Admits (fun i => x (dims.getD i 0)) → c.Admits x) ∧
        ∀ i, i < dims.length → (r.coeff i = 0 ↔ c.coeff (dims.getD i 0) = 0) := by
  rcases projection_cases hs hnodup with ⟨hempty, -⟩ | ⟨rows, hrows, hprojects, hplaces⟩
  · obtain ⟨r, hr, v, hv⟩ := hproper
    rw [hempty] at hr
    obtain rfl := List.mem_singleton.mp hr
    exact absurd (Affine.coeff_constant dims.length (-1) v) hv
  · have hothers : ∀ v ∈ s.others dims, c.coeff v = 0 := by
      intro v hv
      by_contra hne
      simp [others, hdims v hne] at hv
    obtain ⟨r, hr, himplies, hcoeffs⟩ := hprojects.retains c hc hothers hmentions
    refine ⟨_, by rw [hrows]; exact List.mem_map_of_mem hr, fun x hx => himplies x ?_, ?_⟩
    · have hone : Solves (fun i => x (dims.getD i 0)) (reindexed dims [r]) ↔ Solves x [r] :=
        solves_reindexed hnodup (by simpa using hplaces r hr) x
      simp only [reindexed, List.map_cons, List.map_nil, System.solves_cons, System.solves_nil,
        and_true] at hone
      exact hone.mp hx
    · intro i hi
      rw [← hcoeffs]
      simp [Constraint.coeff, Affine.coeff, List.getD_eq_getElem?_getD, hi]

end

end PointSet

end StreamLoom
