import Mathlib.Algebra.BigOperators.Group.List.Basic
import StreamLoom.PointSet.Guarded
import StreamLoom.Proofs.Affine.Bounds

/-!
# Membership in sets of points

A set has a point when some values of its locals solve its constraints. Points are given by
valuations here, of which only the coordinates matter, and so every operation on sets is an operation
on valuations: moving the variables of a constraint composes a valuation with the places.

The questions which are answered by elimination, whether a set is empty and how far an objective
reaches, have an answer in two halves. What they say about integer points is sound, and what they do
not exclude has a rational solution.
-/

namespace StreamLoom

attribute [local instance] Arithmetic.exact

open StreamLoom.System (Solves Over)

namespace System

theorem over_append {n : Nat} {rows rows' : List Constraint} :
    Over n (rows ++ rows') ↔ Over n rows ∧ Over n rows' := by
  simp [Over, or_imp, forall_and]

theorem over_map {n : Nat} {rows : List Constraint} {f : Constraint → Constraint} :
    Over n (rows.map f) ↔ ∀ r ∈ rows, (f r).vars = n := by
  simp [Over]

section

variable {K : Type} [CommRing K] [LinearOrder K] {n : Nat} {rows : List Constraint}

/-- Only the variables that constraints are over matter to them. -/
theorem solves_congr (hover : Over n rows) {x y : Nat → K} (h : ∀ i, i < n → x i = y i) :
    Solves x rows ↔ Solves y rows := by
  exact forall₂_congr fun r hr => Constraint.admits_congr_of_lt (hover r hr).le h

@[simp] theorem solves_map_extend (k : Nat) (x : Nat → K) :
    Solves x (rows.map (·.extend k)) ↔ Solves x rows := by
  simp [Solves]

theorem solves_map_remap (hover : Over n rows) {k : Nat} {places : List Nat}
    (hlength : places.length = n) (hplaces : ∀ p ∈ places, p < k) (x : Nat → K) :
    Solves x (rows.map (·.remap k places)) ↔ Solves (fun i => x (places.getD i 0)) rows := by
  simp only [Solves, List.forall_mem_map]
  refine forall₂_congr fun r hr => ?_
  have hvars : r.vars = n := hover r hr
  exact Constraint.admits_remap r k places (by omega) hplaces x

end

theorem over_map_extend {n k : Nat} {rows : List Constraint} (hover : Over n rows) :
    Over (n + k) (rows.map (·.extend k)) := by
  rw [over_map]
  intro r hr
  rw [← hover r hr]
  exact Affine.vars_extend r.form k

theorem over_map_remap {k : Nat} {rows : List Constraint} {places : List Nat} :
    Over k (rows.map (·.remap k places)) := by
  rw [over_map]
  intro r _
  exact Affine.vars_remap r.form k places

end System

/-! ### Places

Variables are moved in blocks of consecutive ones. -/

theorem getD_append_block (places : List Nat) (c d i : Nat) :
    (places ++ List.range' c d).getD i 0 =
      if i < places.length then places.getD i 0
      else if i < places.length + d then c + (i - places.length) else 0 := by
  simp only [List.getD_eq_getElem?_getD]
  rw [List.getElem?_append]
  split
  · rfl
  · rename_i hi
    split
    · rename_i hd
      rw [List.getElem?_range' (by omega)]
      simp
    · rename_i hd
      rw [List.getElem?_eq_none (by simp; omega)]
      rfl

theorem getD_blocks (a b c d i : Nat) :
    (List.range' a b ++ List.range' c d).getD i 0 =
      if i < b then a + i else if i < b + d then c + (i - b) else 0 := by
  rw [getD_append_block, List.length_range']
  by_cases hi : i < b
  · rw [if_pos hi, if_pos hi, List.getD_eq_getElem?_getD, List.getElem?_range' hi]
    simp
  · rw [if_neg hi, if_neg hi]

theorem lt_of_mem_blocks {a b c d n : Nat} (hab : a + b ≤ n) (hcd : c + d ≤ n) :
    ∀ p ∈ List.range' a b ++ List.range' c d, p < n := by
  intro p hp
  rcases List.mem_append.mp hp with hp | hp
  · have := List.mem_range'_1.mp hp
    omega
  · have := List.mem_range'_1.mp hp
    omega

/-! ### Points as lists -/

def coordinates (n : Nat) (x : Nat → Int) : List Int := (List.range n).map x

@[simp] theorem length_coordinates (n : Nat) (x : Nat → Int) : (coordinates n x).length = n := by
  simp [coordinates]

theorem valuation_coordinates {n i : Nat} (hi : i < n) (x : Nat → Int) :
    valuation (coordinates n x) i = x i := by
  simp [valuation, coordinates, List.getD_eq_getElem?_getD, hi]

theorem coordinates_valuation (point : List Int) : coordinates point.length (valuation point) = point :=
  ext_of_valuation (length_coordinates _ _) fun _ hi => valuation_coordinates hi _

namespace PointSet

/-- Every constraint is over all variables of the set. -/
def Regular (s : PointSet) : Prop := Over s.vars s.cons

/-- Some values of the locals solve the constraints at a point. -/
def Has (s : PointSet) (p : Nat → Int) : Prop :=
  ∃ x : Nat → Int, (∀ i, i < s.dims → x i = p i) ∧ Solves x s.cons

theorem has_congr {s : PointSet} {p q : Nat → Int} (h : ∀ i, i < s.dims → p i = q i) :
    s.Has p ↔ s.Has q := by
  constructor
  · rintro ⟨x, hx, hsolves⟩
    exact ⟨x, fun i hi => (hx i hi).trans (h i hi), hsolves⟩
  · rintro ⟨x, hx, hsolves⟩
    exact ⟨x, fun i hi => (hx i hi).trans (h i hi).symm, hsolves⟩

theorem has_of_solves {s : PointSet} {p : Nat → Int} (h : Solves p s.cons) : s.Has p :=
  ⟨p, fun _ _ => rfl, h⟩

theorem has_iff_solves {s : PointSet} (hregular : s.Regular) (hlocals : s.locals = 0)
    {p : Nat → Int} : s.Has p ↔ Solves p s.cons := by
  refine ⟨?_, has_of_solves⟩
  rintro ⟨x, hx, hsolves⟩
  refine (System.solves_congr hregular fun i hi => hx i ?_).mp hsolves
  simpa [vars, hlocals] using hi

/-- Without locals, a rational solution whose coordinates are integers is a solution in integers. -/
theorem solves_of_coordinates {s : PointSet} (hs : s.Regular) (hlocals : s.locals = 0) {x : Nat → ℚ}
    (hx : Solves x s.cons) {p : Nat → Int} (hp : ∀ i, i < s.dims → x i = p i) : Solves p s.cons := by
  have hcast : Solves (fun i => (p i : ℚ)) s.cons :=
    (System.solves_congr hs fun i hi => hp i (by simpa [vars, hlocals] using hi)).mp hx
  exact (System.solves_intCast p s.cons).mp hcast

/-- Some values of the locals satisfy the constraints at a point that is a list. -/
def Includes (s : PointSet) (p : List Int) : Prop :=
  p.length = s.dims ∧
    ∃ locals : List Int, locals.length = s.locals ∧ ∀ c ∈ s.cons, c.holds (p ++ locals) = true

theorem includes_iff {s : PointSet} (hs : s.Regular) {p : List Int} :
    s.Includes p ↔ p.length = s.dims ∧ s.Has (valuation p) := by
  refine and_congr_right fun hlength => ?_
  have hfirst : ∀ l : List Int, ∀ i, i < s.dims → valuation (p ++ l) i = valuation p i := by
    intro l i hi
    exact valuation_append_left (hlength.symm ▸ hi) l
  constructor
  · rintro ⟨l, -, hholds⟩
    exact ⟨valuation (p ++ l), hfirst l, fun c hc => (Constraint.holds_iff c _).mp (hholds c hc)⟩
  · rintro ⟨x, hx, hsolves⟩
    let l := (List.range s.locals).map fun i => x (s.dims + i)
    refine ⟨l, by simp [l], fun c hc => (Constraint.holds_iff c _).mpr ?_⟩
    refine (System.solves_congr hs fun i hi => ?_).mp hsolves c hc
    simp only [vars] at hi
    by_cases hdim : i < s.dims
    · rw [hx i hdim, hfirst l i hdim]
    · have hlocal : i - s.dims < s.locals := by omega
      simp only [valuation, List.getD_eq_getElem?_getD]
      rw [List.getElem?_append_right (by omega), hlength]
      simp only [l, List.getElem?_map, List.getElem?_range hlocal, Option.map_some, Option.getD_some]
      congr 1
      omega

/-- Without locals, the points are the lists at which every constraint holds. -/
theorem includes_iff_holds {s : PointSet} (hlocals : s.locals = 0) {p : List Int} :
    s.Includes p ↔ p.length = s.dims ∧ ∀ c ∈ s.cons, c.holds p = true := by
  simp [Includes, hlocals]

theorem includes_coordinates {s : PointSet} (hs : s.Regular) {x : Nat → Int} (hx : Solves x s.cons) :
    s.Includes (coordinates s.dims x) :=
  (includes_iff hs).mpr ⟨length_coordinates _ _,
    (has_congr fun _ hi => (valuation_coordinates hi x).symm).mp (has_of_solves hx)⟩

/-! ### Constraints -/

section

variable {s : PointSet} {cs : List Constraint}

@[simp] theorem dims_constrain : (s.constrain cs).dims = s.dims := rfl

@[simp] theorem locals_constrain : (s.constrain cs).locals = s.locals := rfl

theorem regular_constrain (hs : s.Regular) (hcs : Over s.dims cs) : (s.constrain cs).Regular :=
  System.over_append.mpr ⟨hs, System.over_map_extend hcs⟩

theorem has_constrain (hcs : Over s.dims cs) {p : Nat → Int} :
    (s.constrain cs).Has p ↔ s.Has p ∧ Solves p cs := by
  constructor
  · rintro ⟨x, hx, hsolves⟩
    obtain ⟨hold, hnew⟩ := (System.solves_append x _ _).mp hsolves
    rw [System.solves_map_extend] at hnew
    exact ⟨⟨x, hx, hold⟩, (System.solves_congr hcs hx).mp hnew⟩
  · rintro ⟨⟨x, hx, hold⟩, hnew⟩
    refine ⟨x, hx, (System.solves_append x _ _).mpr ⟨hold, ?_⟩⟩
    rw [System.solves_map_extend]
    exact (System.solves_congr hcs hx).mpr hnew

theorem solves_constrain {K : Type} [CommRing K] [LinearOrder K] {x : Nat → K} :
    Solves x (s.constrain cs).cons ↔ Solves x s.cons ∧ Solves x cs := by
  simp [constrain]

private theorem over_fixed (n dim : Nat) (value : Int) :
    Over n [.zero ((Affine.var n dim).plus (-value))] := by
  intro c hc
  obtain rfl := List.mem_singleton.mp hc
  simp

@[simp] theorem dims_fix (dim : Nat) (value : Int) : (s.fix dim value).dims = s.dims := rfl

@[simp] theorem locals_fix (dim : Nat) (value : Int) : (s.fix dim value).locals = s.locals := rfl

theorem regular_fix (hs : s.Regular) (dim : Nat) (value : Int) : (s.fix dim value).Regular :=
  regular_constrain hs (over_fixed s.dims dim value)

theorem solves_fix {K : Type} [CommRing K] [LinearOrder K] {dim : Nat} (hdim : dim < s.dims)
    (value : Int) {x : Nat → K} :
    Solves x (s.fix dim value).cons ↔ Solves x s.cons ∧ x dim = value := by
  rw [fix, solves_constrain, System.solves_cons, Constraint.admits_zero, Affine.valueAt_plus,
    Affine.valueAt_var hdim]
  simp [add_neg_eq_zero]

theorem includes_fix (hs : s.Regular) {dim : Nat} (hdim : dim < s.dims) (value : Int) {p : List Int} :
    (s.fix dim value).Includes p ↔ s.Includes p ∧ valuation p dim = value := by
  have hhas : (s.fix dim value).Has (valuation p) ↔ s.Has (valuation p) ∧ valuation p dim = value := by
    constructor
    · rintro ⟨x, hx, hsolves⟩
      obtain ⟨hold, hvalue⟩ := (solves_fix hdim value).mp hsolves
      exact ⟨⟨x, hx, hold⟩, (hx dim hdim).symm.trans hvalue⟩
    · rintro ⟨⟨x, hx, hold⟩, hvalue⟩
      exact ⟨x, hx, (solves_fix hdim value).mpr ⟨hold, (hx dim hdim).trans hvalue⟩⟩
  rw [includes_iff (regular_fix hs dim value), includes_iff hs, hhas, dims_fix, and_assoc]

end

/-! ### Emptiness -/

theorem not_has_of_isEmpty {s : PointSet} (hs : s.Regular) (h : s.isEmpty = true) (p : Nat → Int) :
    ¬ s.Has p := by
  rintro ⟨x, -, hsolves⟩
  exact System.not_solves_of_project hs (Option.isNone_iff_eq_none.mp h) x hsolves

theorem isEmpty_of_has {s : PointSet} (hs : s.Regular) {p : Nat → Int} (h : s.Has p) :
    s.isEmpty = false := by
  by_contra hempty
  exact not_has_of_isEmpty hs (by simpa using hempty) p h

/-- A set which is not found to be empty has a rational point at least. -/
theorem exists_solves_of_isEmpty {s : PointSet} (hs : s.Regular) (h : s.isEmpty = false) :
    ∃ x : Nat → ℚ, Solves x s.cons := by
  obtain ⟨rows, hrows⟩ : ∃ rows, System.project s.cons (List.range s.vars) = some rows :=
    Option.isSome_iff_exists.mp (by simpa [isEmpty] using h)
  have hprojects := System.project_projects hs hrows
  -- Every variable is gone, whereas a row in lowest terms would mention one.
  have hnil : rows = [] := by
    by_contra hne
    obtain ⟨r, hr⟩ := List.exists_mem_of_ne_nil rows hne
    have hlowest := System.project_lowest hrows r hr
    have hzero : ∀ v, r.coeff v = 0 := by
      intro v
      by_cases hv : v < s.vars
      · exact hprojects.gone v (List.mem_range.mpr hv) r hr
      · have hvars : r.form.vars = s.vars := hprojects.width s.vars hs r hr
        exact Affine.coeff_of_le (by omega)
    have htwo : (2 : Int) ∣ 1 := hlowest 2 fun v => by simp [hzero v]
    omega
  obtain ⟨x, -, hx⟩ := hprojects.lifts (fun _ => 0) (by simp [hnil])
  exact ⟨x, hx⟩

theorem not_has_of_isIntegerEmpty {s : PointSet} (hs : s.Regular) (h : s.isIntegerEmpty = true)
    (p : Nat → Int) : ¬ s.Has p := by
  rw [isIntegerEmpty, Bool.or_eq_true] at h
  rcases h with h | h
  · exact not_has_of_isEmpty hs h p
  · rintro ⟨x, -, hsolves⟩
    split at h
    · rename_i hnone
      exact System.not_solves_of_ofConstraints hnone x hsolves
    · rename_i rows hrows
      have htightens := System.ofConstraints_tightens hrows
      exact System.not_solves_of_hasIntegerSolution (htightens.width _ hs) (by simpa using h) x
        (htightens.sound x hsolves)

/-! ### Points -/

section

private theorem regular_foldl_fix (point : List (Int × Nat)) {s : PointSet} (hs : s.Regular) :
    (point.foldl (fun t (x, d) => t.fix d x) s).Regular := by
  induction point generalizing s with
  | nil => exact hs
  | cons xd rest ih => exact ih (regular_fix hs xd.2 xd.1)

private theorem solves_foldl_fix {K : Type} [CommRing K] [LinearOrder K] (point : List (Int × Nat))
    {s : PointSet} (hdims : ∀ xd ∈ point, xd.2 < s.dims) {x : Nat → K} :
    Solves x (point.foldl (fun t (x, d) => t.fix d x) s).cons ↔
      Solves x s.cons ∧ ∀ xd ∈ point, x xd.2 = xd.1 := by
  induction point generalizing s with
  | nil => simp
  | cons xd rest ih =>
    obtain ⟨value, d⟩ := xd
    have hd : d < s.dims := hdims (value, d) (by simp)
    have hrest := ih (s := s.fix d value) fun yd hyd => hdims yd (by simp [hyd])
    rw [solves_fix hd] at hrest
    refine hrest.trans ?_
    simp [and_assoc]

section

variable {s : PointSet} {point : List Int}

private theorem dims_of_mem_zipIdx (hlength : point.length = s.dims) :
    ∀ xd ∈ point.zipIdx, xd.2 < s.dims := by
  intro xd hxd
  have := List.snd_lt_of_mem_zipIdx hxd
  omega

private theorem valuation_of_mem_zipIdx : ∀ xd ∈ point.zipIdx, valuation point xd.2 = xd.1 := by
  rintro ⟨x, d⟩ hxd
  have hget := List.mem_zipIdx_iff_getElem?.mp hxd
  simp [valuation, List.getD_eq_getElem?_getD, hget]

/-- No point of a set is denied. -/
theorem contains_of_includes (hs : s.Regular) (h : s.Includes point) : s.contains point = true := by
  obtain ⟨hlength, x, hx, hsolves⟩ := (includes_iff hs).mp h
  rw [contains, Bool.not_eq_true']
  refine isEmpty_of_has (regular_foldl_fix point.zipIdx hs) (p := x) (has_of_solves ?_)
  refine (solves_foldl_fix point.zipIdx (dims_of_mem_zipIdx hlength)).mpr ⟨hsolves, fun xd hxd => ?_⟩
  rw [hx _ (dims_of_mem_zipIdx hlength xd hxd)]
  exact valuation_of_mem_zipIdx xd hxd

/-- Without locals, fixing all coordinates leaves nothing open, so that the rational shadow decides
membership. -/
theorem contains_iff (hs : s.Regular) (hlocals : s.locals = 0) (hlength : point.length = s.dims) :
    s.contains point = true ↔ Solves (valuation point) s.cons := by
  refine ⟨fun h => ?_, fun h => contains_of_includes hs ((includes_iff hs).mpr ⟨hlength, has_of_solves h⟩)⟩
  rw [contains, Bool.not_eq_true'] at h
  obtain ⟨x, hx⟩ := exists_solves_of_isEmpty (regular_foldl_fix point.zipIdx hs) h
  obtain ⟨hsolves, hfixed⟩ := (solves_foldl_fix point.zipIdx (dims_of_mem_zipIdx hlength)).mp hx
  refine solves_of_coordinates hs hlocals hsolves fun i hi => ?_
  have hi' : i < point.length := hlength.symm ▸ hi
  have hmem : (point[i], i) ∈ point.zipIdx :=
    List.mem_zipIdx_iff_getElem?.mpr (List.getElem?_eq_getElem hi')
  rw [hfixed _ hmem, valuation_of_mem_zipIdx _ hmem]

end

theorem isRegular_eq_ok {s : PointSet} (hs : s.Regular) : s.isRegular = .ok () := by
  have hall : s.cons.all (·.vars == s.vars) = true := by
    rw [List.all_eq_true]
    intro c hc
    simpa using hs c hc
  rw [isRegular, regular, hall, require_true]

/-- Membership of a point can be asked for when the point has the dimension of the set. -/
theorem contains?_eq_ok_iff {s : PointSet} (hs : s.Regular) {point : List Int} {b : Bool} :
    s.contains? point = .ok b ↔ point.length = s.dims ∧ s.contains point = b := by
  have hregular := isRegular_eq_ok hs
  unfold contains?
  by_cases hlength : point.length = s.dims
  · simp [hregular, hlength, bind, Except.bind, pure, Except.pure]
  · have hrequire : (point.length == s.dims) = false := by simpa using hlength
    simp [hrequire, hlength, bind, Except.bind]

end

/-! ### Objectives -/

section

variable {s : PointSet} {objective : Affine}

/-- The constraints of a set, and a further variable that has the value of an objective. -/
private def valued (s : PointSet) (objective : Affine) : List Constraint :=
  s.cons.map (·.extend 1) ++
    [.equal (.var (s.vars + 1) s.vars) (objective.extend (s.locals + 1))]

private theorem bound_eq : s.bound objective =
    (System.project (s.valued objective) (List.range s.vars)).bind (·.bounds s.vars) := rfl

private theorem over_valued (hs : s.Regular) (hobjective : objective.vars = s.dims) :
    Over (s.vars + 1) (s.valued objective) := by
  refine System.over_append.mpr ⟨System.over_map_extend hs, ?_⟩
  intro c hc
  obtain rfl := List.mem_singleton.mp hc
  change ((Affine.var _ _).sub _).vars = _
  rw [Affine.vars_sub, Affine.vars_var, Affine.vars_extend, hobjective, vars]
  omega

private theorem solves_valued {K : Type} [CommRing K] [LinearOrder K]
    (hobjective : objective.vars = s.dims) {x : Nat → K} :
    Solves x (s.valued objective) ↔ Solves x s.cons ∧ x s.vars = objective.valueAt x := by
  have hvars : (Affine.var (s.vars + 1) s.vars).vars = (objective.extend (s.locals + 1)).vars := by
    simp [hobjective, vars]
    omega
  simp [valued, Constraint.admits_equal hvars, Affine.valueAt_var (Nat.lt_succ_self s.vars)]

private theorem only_valued (hs : s.Regular) (hobjective : objective.vars = s.dims)
    {rows : System} (h : System.project (s.valued objective) (List.range s.vars) = some rows) :
    System.Only s.vars rows := by
  refine System.only_of_projects (over_valued hs hobjective) ?_
    (System.project_projects (over_valued hs hobjective) h)
  intro w hw hne
  exact List.mem_range.mpr (by omega)

/-- The range of an objective contains its value at every point. -/
theorem bound_of_has (hs : s.Regular) (hobjective : objective.vars = s.dims) {p : Nat → Int}
    (hp : s.Has p) :
    ∃ interval, s.bound objective = some interval ∧ interval.contains (objective.valueAt p) = true := by
  obtain ⟨x, hx, hsolves⟩ := hp
  let x' := Function.update x s.vars (objective.valueAt x)
  have hagree : ∀ i, i < s.vars → x' i = x i := fun i hi => Function.update_of_ne (by omega) _ _
  have hvalue : ∀ y : Nat → Int, (∀ i, i < s.dims → y i = x i) →
      objective.valueAt y = objective.valueAt x := by
    intro y hy
    exact Affine.valueAt_congr_of_lt hobjective.le hy
  have hsolves' : Solves x' (s.valued objective) := by
    rw [solves_valued hobjective]
    refine ⟨(System.solves_congr hs hagree).mpr hsolves, ?_⟩
    rw [hvalue x' fun i hi => hagree i (by simp only [vars]; omega)]
    exact Function.update_self s.vars _ x
  cases hproject : System.project (s.valued objective) (List.range s.vars) with
  | none =>
    exact absurd hsolves' (System.not_solves_of_project (over_valued hs hobjective) hproject x')
  | some rows =>
    have hprojects := System.project_projects (over_valued hs hobjective) hproject
    obtain ⟨interval, hbounds, hcontains⟩ := System.bounds_of_solves (System.project_lowest hproject)
      (only_valued hs hobjective hproject) (hprojects.sound x' hsolves')
    refine ⟨interval, ?_, ?_⟩
    · rw [bound_eq, hproject]
      exact hbounds
    · rw [hvalue p fun i hi => (hx i hi).symm]
      rwa [show x' s.vars = objective.valueAt x from Function.update_self s.vars _ x] at hcontains

/-- Every value in the range of an objective is attained by a rational solution. -/
theorem exists_solves_of_bound (hs : s.Regular) (hobjective : objective.vars = s.dims)
    {interval : Interval} (h : s.bound objective = some interval) {t : Int}
    (ht : interval.contains t = true) :
    ∃ x : Nat → ℚ, Solves x s.cons ∧ objective.valueAt x = t := by
  obtain ⟨rows, hproject, hbounds⟩ := Option.bind_eq_some_iff.mp h
  have hprojects := System.project_projects (over_valued hs hobjective) hproject
  have hrows : Solves (fun _ => t) rows :=
    System.solves_of_bounds (System.project_lowest hproject) (only_valued hs hobjective hproject)
      hbounds ht
  obtain ⟨x, hx, hsolves⟩ := hprojects.lifts (fun _ => (t : ℚ))
    ((System.solves_intCast (fun _ => t) rows).mpr hrows)
  obtain ⟨hcons, hvalue⟩ := (solves_valued hobjective).mp hsolves
  exact ⟨x, hcons, by rw [← hvalue, hx s.vars (by simp)]⟩

theorem maximum_of_has (hs : s.Regular) (hobjective : objective.vars = s.dims) {p : Nat → Int}
    (hp : s.Has p) :
    ∃ upper, s.maximum objective = some upper ∧ .int (objective.valueAt p) ≤ upper := by
  obtain ⟨interval, hbound, hcontains⟩ := bound_of_has hs hobjective hp
  exact ⟨interval.upper, by simp [maximum, hbound], (Interval.contains_iff.mp hcontains).2⟩

theorem minimum_of_has (hs : s.Regular) (hobjective : objective.vars = s.dims) {p : Nat → Int}
    (hp : s.Has p) :
    ∃ lower, s.minimum objective = some lower ∧ lower ≤ .int (objective.valueAt p) := by
  obtain ⟨interval, hbound, hcontains⟩ := bound_of_has hs hobjective hp
  exact ⟨interval.lower, by simp [minimum, hbound], (Interval.contains_iff.mp hcontains).1⟩

end

/-! ### Products and intersections -/

section

variable {s o : PointSet}

theorem regular_product : (s.product o).Regular := by
  simp only [Regular, product, vars, ← Nat.add_assoc]
  exact System.over_append.mpr ⟨System.over_map_remap, System.over_map_remap⟩

theorem has_product (hs : s.Regular) (ho : o.Regular) {p : Nat → Int} :
    (s.product o).Has p ↔ s.Has p ∧ o.Has fun i => p (s.dims + i) := by
  have hleft : ∀ x : Nat → Int, Solves x (s.cons.map (·.remap (s.dims + o.dims + s.locals + o.locals)
      (List.range s.dims ++ List.range' (s.dims + o.dims) s.locals))) ↔
      Solves (fun i => x (if i < s.dims then i else o.dims + i)) s.cons := by
    intro x
    rw [List.range_eq_range', System.solves_map_remap hs (by simp [vars])
      (lt_of_mem_blocks (by omega) (by omega))]
    refine System.solves_congr hs fun i hi => ?_
    simp only [getD_blocks, vars] at hi ⊢
    congr 1
    split <;> omega
  have hright : ∀ x : Nat → Int, Solves x (o.cons.map (·.remap (s.dims + o.dims + s.locals + o.locals)
      (List.range' s.dims o.dims ++ List.range' (s.dims + o.dims + s.locals) o.locals))) ↔
      Solves (fun i => x (if i < o.dims then s.dims + i else s.vars + i)) o.cons := by
    intro x
    rw [System.solves_map_remap ho (by simp [vars]) (lt_of_mem_blocks (by omega) (by omega))]
    refine System.solves_congr ho fun i hi => ?_
    simp only [getD_blocks, vars] at hi ⊢
    congr 1
    split <;> omega
  constructor
  · rintro ⟨x, hx, hsolves⟩
    obtain ⟨hxs, hxo⟩ := (System.solves_append x _ _).mp hsolves
    refine ⟨⟨_, fun i hi => ?_, (hleft x).mp hxs⟩, ⟨_, fun i hi => ?_, (hright x).mp hxo⟩⟩
    · simp only [if_pos hi]
      exact hx i (by simp only [product]; omega)
    · simp only [if_pos hi]
      exact hx (s.dims + i) (by simp only [product]; omega)
  · rintro ⟨⟨xs, hxs, hsolves⟩, ⟨xo, hxo, hsolves'⟩⟩
    let x : Nat → Int := fun i =>
      if i < s.dims + o.dims then p i
      else if i < s.dims + o.dims + s.locals then xs (i - o.dims)
      else xo (i - s.vars)
    refine ⟨x, fun i hi => if_pos hi, (System.solves_append x _ _).mpr
      ⟨(hleft x).mpr ?_, (hright x).mpr ?_⟩⟩
    · refine (System.solves_congr hs fun i hi => ?_).mpr hsolves
      simp only [vars] at hi
      by_cases hdims : i < s.dims
      · simp only [if_pos hdims, x]
        rw [if_pos (by omega), hxs i hdims]
      · simp only [if_neg hdims, x]
        rw [if_neg (by omega), if_pos (by omega), Nat.add_sub_cancel_left]
    · refine (System.solves_congr ho fun i hi => ?_).mpr hsolves'
      simp only [vars] at hi
      by_cases hdims : i < o.dims
      · simp only [if_pos hdims, x]
        rw [if_pos (by omega), hxo i hdims]
      · simp only [if_neg hdims, x, vars]
        rw [if_neg (by omega), if_neg (by omega), Nat.add_sub_cancel_left]

theorem regular_intersect (hs : s.Regular) : (s.intersect o).Regular := by
  simp only [Regular, intersect, vars, ← Nat.add_assoc]
  exact System.over_append.mpr ⟨System.over_map_extend hs, System.over_map_remap⟩

theorem has_intersect (hs : s.Regular) (ho : o.Regular) (hdims : o.dims = s.dims) {p : Nat → Int} :
    (s.intersect o).Has p ↔ s.Has p ∧ o.Has p := by
  have hsolves : ∀ x : Nat → Int, Solves x (o.cons.map (·.remap (s.vars + o.locals)
      (List.range s.dims ++ List.range' s.vars o.locals))) ↔
      Solves (fun i => x (if i < s.dims then i else s.locals + i)) o.cons := by
    intro x
    rw [List.range_eq_range', System.solves_map_remap ho (by simp [vars, hdims])
      (lt_of_mem_blocks (by simp only [vars]; omega) (by omega))]
    refine System.solves_congr ho fun i hi => ?_
    simp only [getD_blocks, vars] at hi ⊢
    congr 1
    split
    · omega
    · rw [if_pos (by omega)]
      omega
  constructor
  · rintro ⟨x, hx, hboth⟩
    obtain ⟨hfirst, hsecond⟩ := (System.solves_append x _ _).mp hboth
    rw [System.solves_map_extend] at hfirst
    refine ⟨⟨x, hx, hfirst⟩, ⟨_, fun i hi => ?_, (hsolves x).mp hsecond⟩⟩
    have hi' : i < s.dims := by omega
    simp only [if_pos hi']
    exact hx i hi'
  · rintro ⟨⟨xs, hxs, hfirst⟩, ⟨xo, hxo, hsecond⟩⟩
    let x : Nat → Int := fun i => if i < s.vars then xs i else xo (i - s.locals)
    have hbelow : ∀ i, i < s.vars → x i = xs i := fun i hi => if_pos hi
    refine ⟨x, fun i hi => ?_, (System.solves_append x _ _).mpr ⟨?_, (hsolves x).mpr ?_⟩⟩
    · have hi' : i < s.dims := hi
      rw [hbelow i (by simp only [vars]; omega), hxs i hi']
    · rw [System.solves_map_extend]
      exact (System.solves_congr hs hbelow).mpr hfirst
    · refine (System.solves_congr ho fun i hi => ?_).mpr hsecond
      by_cases hlt : i < s.dims
      · rw [if_pos hlt, hbelow i (by simp only [vars]; omega), hxs i hlt, hxo i (by omega)]
      · simp only [if_neg hlt, x]
        rw [if_neg (by simp only [vars]; omega), Nat.add_sub_cancel_left]

end

end PointSet

end StreamLoom
