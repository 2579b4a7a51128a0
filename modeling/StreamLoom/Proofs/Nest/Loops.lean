import StreamLoom.Proofs.Nest.Expr
import StreamLoom.Proofs.Nest.Trace
import StreamLoom.Proofs.PointSet.Locals

/-!
# Loops over inner dimensions

A loop runs over all values that satisfy those rows of a projection which mention its dimension. The
projection may be wider than the set itself, so that a loop can run where nothing is left for the loops
inside of it. But a constraint of the set leaves its trace where its last dimension is looped over, and
so the innermost point is reached for no point outside of the set.
-/

namespace StreamLoom.Nest

attribute [local instance] Arithmetic.exact

open StreamLoom.System (Solves Over)

/-! ### Bounds -/

section

variable {env : Env} {names : List String} {v : Nat} {w : Nat → Int} {c : Constraint}

private theorem bound_of_coeff (hnames : names.length = v + 1) (hc : c.vars = v + 1)
    (henv : ∀ (i : Nat) (name : String), i < v → names[i]? = some name → env.lookup name = some (w i))
    (i : Nat) (name : String) (hname : names[i]? = some name)
    (hne : (c.form.setCoeff v 0).coeff i ≠ 0) : env.lookup name = some (w i) := by
  have hlt : i < v + 1 := by
    rw [← hnames]
    exact (List.getElem?_eq_some_iff.mp hname).1
  refine henv i name ?_ hname
  by_contra hge
  obtain rfl : i = v := by omega
  apply hne
  have hinside : i < c.form.coeffs.length := by
    change i < c.vars
    omega
  simp [Affine.coeff, Affine.setCoeff, hinside]

private theorem valueAt_rest (hc : c.vars = v + 1) (t : Int) :
    (c.form.setCoeff v 0).valueAt w = c.form.valueAt (Function.update w v t) - c.coeff v * t := by
  have hlt : v < c.form.vars := by
    change v < c.vars
    omega
  rw [Affine.valueAt_setCoeff _ _ _ _ hlt, Affine.valueAt_update]
  change _ = c.form.valueAt w + c.coeff v * (t - w v) - c.coeff v * t
  change c.form.valueAt w + (0 - c.coeff v) * w v = _
  ring

private theorem eval_lower (hnames : names.length = v + 1) (hc : c.vars = v + 1)
    (henv : ∀ (i : Nat) (name : String), i < v → names[i]? = some name → env.lookup name = some (w i))
    (hne : c.coeff v ≠ 0) :
    ∃ q, (quotient (lowerQuotient c v).1 (lowerQuotient c v).2 true names).eval env = .ok q ∧
      ∀ t, q ≤ t ↔ if c.coeff v < 0 then c.form.valueAt (Function.update w v t) ≤ 0
        else 0 ≤ c.form.valueAt (Function.update w v t) := by
  have hvars : (c.form.setCoeff v 0).vars = names.length := by
    rw [Affine.vars_setCoeff, hnames]
    exact hc
  have hbound := bound_of_coeff hnames hc henv
  unfold lowerQuotient
  dsimp only
  split
  · rename_i hneg
    obtain ⟨q, hq, hiff⟩ := eval_quotient_up hvars hbound (show 0 < -c.coeff v by omega)
    refine ⟨q, hq, fun t => ?_⟩
    rw [hiff, valueAt_rest hc t]
    constructor <;> intro <;> linarith
  · obtain ⟨q, hq, hiff⟩ := eval_quotient_up (by rw [Affine.vars_neg]; exact hvars)
      (fun i name hname hcoeff => hbound i name hname (by simpa using hcoeff))
      (show 0 < c.coeff v by omega)
    refine ⟨q, hq, fun t => ?_⟩
    rw [hiff, Affine.valueAt_neg, valueAt_rest hc t]
    constructor <;> intro <;> linarith

private theorem eval_upper (hnames : names.length = v + 1) (hc : c.vars = v + 1)
    (henv : ∀ (i : Nat) (name : String), i < v → names[i]? = some name → env.lookup name = some (w i))
    (hne : c.coeff v ≠ 0) :
    ∃ q, (quotient (upperQuotient c v).1 (upperQuotient c v).2 false names).eval env = .ok q ∧
      ∀ t, t ≤ q ↔ if 0 < c.coeff v then c.form.valueAt (Function.update w v t) ≤ 0
        else 0 ≤ c.form.valueAt (Function.update w v t) := by
  have hvars : (c.form.setCoeff v 0).vars = names.length := by
    rw [Affine.vars_setCoeff, hnames]
    exact hc
  have hbound := bound_of_coeff hnames hc henv
  unfold upperQuotient
  simp only [Arithmetic.fit_exact]
  split
  · rename_i hneg
    obtain ⟨q, hq, hiff⟩ := eval_quotient_down (by rw [Affine.vars_neg]; exact hvars)
      (fun i name hname hcoeff => hbound i name hname (by simpa using hcoeff))
      (show 0 < c.coeff v by omega)
    refine ⟨q, hq, fun t => ?_⟩
    rw [hiff, Affine.valueAt_neg, valueAt_rest hc t, if_pos (by omega)]
    constructor <;> intro <;> linarith
  · obtain ⟨q, hq, hiff⟩ := eval_quotient_down hvars hbound (show 0 < -c.coeff v by omega)
    refine ⟨q, hq, fun t => ?_⟩
    rw [hiff, valueAt_rest hc t, if_neg (by omega)]
    constructor <;> intro <;> linarith

/-- A row that mentions a variable is satisfied where the bounds which it gives are. -/
private theorem admits_iff_bounds {c : Constraint} (hne : c.coeff v ≠ 0) (x : Nat → Int) :
    c.Admits x ↔
      ((c.coeff v > 0 || (c.equality && c.coeff v < 0)) = true →
        if c.coeff v < 0 then c.form.valueAt x ≤ 0 else 0 ≤ c.form.valueAt x) ∧
      ((c.coeff v < 0 || (c.equality && c.coeff v > 0)) = true →
        if 0 < c.coeff v then c.form.valueAt x ≤ 0 else 0 ≤ c.form.valueAt x) := by
  rw [Constraint.Admits]
  cases heq : c.equality with
  | true =>
    rcases lt_or_gt_of_ne hne with hneg | hpos
    · simp [hneg, not_lt.mpr hneg.le]
      omega
    · simp [hpos, not_lt.mpr hpos.le]
      omega
  | false =>
    rcases lt_or_gt_of_ne hne with hneg | hpos
    · simp [hneg, not_lt.mpr hneg.le]
    · simp [hpos, not_lt.mpr hpos.le]

/-- All bounds of a loop can be evaluated, and together they say that the rows which mention its
variable are satisfied. -/
private theorem bounds_spec {rows : List Constraint} (hrows : Over (v + 1) rows)
    (hnames : names.length = v + 1)
    (henv : ∀ (i : Nat) (name : String), i < v → names[i]? = some name →
      env.lookup name = some (w i)) :
    (∀ e ∈ lowerBounds v names rows, ∃ q, Expr.eval env e = .ok q) ∧
    (∀ e ∈ upperBounds v names rows, ∃ q, Expr.eval env e = .ok q) ∧
    ∀ t, ((∀ e ∈ lowerBounds v names rows, ∀ q, Expr.eval env e = .ok q → q ≤ t) ∧
        ∀ e ∈ upperBounds v names rows, ∀ q, Expr.eval env e = .ok q → t ≤ q) ↔
      ∀ c ∈ rows, c.coeff v ≠ 0 → c.Admits (Function.update w v t) := by
  have hlower {c : Constraint} (hc : c ∈ rows)
      (hside : (c.coeff v > 0 || (c.equality && c.coeff v < 0)) = true) :=
    eval_lower hnames (hrows c hc) henv (show c.coeff v ≠ 0 by rintro hzero; simp [hzero] at hside)
  have hupper {c : Constraint} (hc : c ∈ rows)
      (hside : (c.coeff v < 0 || (c.equality && c.coeff v > 0)) = true) :=
    eval_upper hnames (hrows c hc) henv (show c.coeff v ≠ 0 by rintro hzero; simp [hzero] at hside)
  refine ⟨?_, ?_, fun t => ⟨?_, fun h => ⟨?_, ?_⟩⟩⟩
  · intro e he
    obtain ⟨c, hc, rfl⟩ := List.mem_map.mp he
    obtain ⟨hc, hside⟩ := List.mem_filter.mp hc
    obtain ⟨q, hq, -⟩ := hlower hc hside
    exact ⟨q, hq⟩
  · intro e he
    obtain ⟨c, hc, rfl⟩ := List.mem_map.mp he
    obtain ⟨hc, hside⟩ := List.mem_filter.mp hc
    obtain ⟨q, hq, -⟩ := hupper hc hside
    exact ⟨q, hq⟩
  · rintro ⟨hlowers, huppers⟩ c hc hne
    rw [admits_iff_bounds hne]
    constructor
    · intro hside
      obtain ⟨q, hq, hiff⟩ := hlower hc hside
      exact (hiff t).mp (hlowers _ (List.mem_map_of_mem (List.mem_filter.mpr ⟨hc, hside⟩)) q hq)
    · intro hside
      obtain ⟨q, hq, hiff⟩ := hupper hc hside
      exact (hiff t).mp (huppers _ (List.mem_map_of_mem (List.mem_filter.mpr ⟨hc, hside⟩)) q hq)
  · intro e he q hq
    obtain ⟨c, hc, rfl⟩ := List.mem_map.mp he
    obtain ⟨hc, hside⟩ := List.mem_filter.mp hc
    obtain ⟨q', hq', hiff⟩ := hlower hc hside
    have hne : c.coeff v ≠ 0 := by
      rintro hzero
      simp [hzero] at hside
    obtain rfl := Except.ok.inj (hq.symm.trans hq')
    exact (hiff t).mpr (((admits_iff_bounds hne _).mp (h c hc hne)).1 hside)
  · intro e he q hq
    obtain ⟨c, hc, rfl⟩ := List.mem_map.mp he
    obtain ⟨hc, hside⟩ := List.mem_filter.mp hc
    obtain ⟨q', hq', hiff⟩ := hupper hc hside
    have hne : c.coeff v ≠ 0 := by
      rintro hzero
      simp [hzero] at hside
    obtain rfl := Except.ok.inj (hq.symm.trans hq')
    exact (hiff t).mpr (((admits_iff_bounds hne _).mp (h c hc hne)).2 hside)

end

variable {domain : PointSet} {outer : List Nat} {d : Nat}

def Within (domain : PointSet) (outer : List Nat) (d : Nat) (x : Nat → Int) : Prop :=
  ∀ c ∈ (domain.projection (outer ++ [d])).cons, c.coeff outer.length ≠ 0 →
    c.Admits fun i => x ((outer ++ [d]).getD i 0)

theorem within_congr (hdomain : domain.Regular) (hnodup : (outer ++ [d]).Nodup) {x y : Nat → Int}
    (h : ∀ e ∈ outer ++ [d], x e = y e) : Within domain outer d x ↔ Within domain outer d y := by
  refine forall₂_congr fun c hc => imp_congr_right fun _ => ?_
  apply Constraint.admits_congr_of_lt (PointSet.regular_projection hdomain hnodup c hc).le
  intro i hi
  apply h
  rw [List.getD_eq_getElem?_getD, List.getElem?_eq_getElem hi]
  exact List.getElem_mem hi

/-- The bounds of a loop leave just the values that satisfy the rows which mention its dimension. -/
theorem eval_loopBounds (hdomain : domain.Regular) (hnodup : (outer ++ [d]).Nodup) {lower upper : Expr}
    (h : loopBounds domain outer d = .ok (lower, upper)) {env : Env} {x : Nat → Int}
    (henv : Binds env outer x) :
    ∃ lo hi, lower.eval env = .ok lo ∧ upper.eval env = .ok hi ∧
      ∀ t, lo ≤ t ∧ t ≤ hi ↔ Within domain outer d (Function.update x d t) := by
  have hd : d ∉ outer := by
    rw [List.nodup_append] at hnodup
    exact fun hmem => hnodup.2.2 d hmem d (by simp) rfl
  have hover : Over (outer.length + 1) (domain.projection (outer ++ [d])).cons := by
    have hregular := PointSet.regular_projection hdomain hnodup
    rwa [List.length_append, List.length_singleton] at hregular
  unfold loopBounds at h
  dsimp only at h
  split at h
  · cases h
  rename_i hempty
  cases h
  obtain ⟨hlowers, huppers⟩ : lowerBounds outer.length ((outer ++ [d]).map iteratorName)
      (domain.projection (outer ++ [d])).cons ≠ [] ∧ upperBounds outer.length
      ((outer ++ [d]).map iteratorName) (domain.projection (outer ++ [d])).cons ≠ [] := by
    simpa [not_or] using hempty
  obtain ⟨hevals, hevals', hiff⟩ := bounds_spec (w := fun i => x ((outer ++ [d]).getD i 0)) hover
    (show ((outer ++ [d]).map iteratorName).length = outer.length + 1 by simp) (fun i name hi hname => by
      have hget : outer[i]? = some outer[i] := List.getElem?_eq_getElem hi
      rw [List.getElem?_map, List.getElem?_append_left hi, hget] at hname
      obtain rfl := Option.some.inj hname
      rw [List.getD_eq_getElem?_getD, List.getElem?_append_left hi, hget]
      exact henv _ (List.getElem_mem hi))
  obtain ⟨lo, hlo, hlower⟩ := eval_combine .max hlowers hevals
  obtain ⟨hi, hhi, hupper⟩ := eval_combine .min huppers hevals'
  refine ⟨lo, hi, hlo, hhi, fun t => ?_⟩
  refine ((and_congr (hlower t) (hupper t)).trans (hiff t)).trans ?_
  refine forall₂_congr fun c hc => imp_congr_right fun _ => ?_
  apply Constraint.admits_congr_of_lt (hover c hc).le
  intro i hlt
  by_cases hi : i = outer.length
  · subst hi
    simp [List.getD_eq_getElem?_getD]
  · have hget : (outer ++ [d]).getD i 0 = outer[i] := by
      rw [List.getD_eq_getElem?_getD, List.getElem?_append_left (by omega)]
      simp [show i < outer.length by omega]
    rw [Function.update_of_ne hi, hget, Function.update_of_ne]
    rintro rfl
    exact hd (List.getElem_mem _)

/-- A loop is generated only where some row mentions its dimension. -/
theorem exists_mention {bounds : Expr × Expr} (h : loopBounds domain outer d = .ok bounds) :
    ∃ r ∈ (domain.projection (outer ++ [d])).cons, r.coeff outer.length ≠ 0 := by
  unfold loopBounds at h
  dsimp only at h
  split at h
  · cases h
  rename_i hempty
  have hlowers : lowerBounds outer.length ((outer ++ [d]).map iteratorName)
      (domain.projection (outer ++ [d])).cons ≠ [] := by
    intro hnil
    rw [hnil, List.isEmpty_nil, Bool.true_or] at hempty
    exact hempty rfl
  obtain ⟨e, he⟩ := List.exists_mem_of_ne_nil _ hlowers
  obtain ⟨r, hr, -⟩ := List.mem_map.mp he
  obtain ⟨hr, hside⟩ := List.mem_filter.mp hr
  refine ⟨r, hr, fun hzero => ?_⟩
  simp [hzero] at hside

/-! ### Inner loops -/

/-- A point satisfies the rows that bound each of some loops, one inside of the other. -/
def Fits (domain : PointSet) : List Nat → List Nat → (Nat → Int) → Prop
  | _, [], _ => True
  | outer, d :: rest, x => Within domain outer d x ∧ Fits domain (outer ++ [d]) rest x

def Visit.at (v : Visit) : Nat → Int := valuation v.index.tail

/-- The node that visits the point at which the iterators are. -/
def visiting (statement : Nat) (name : String) (dims : Nat) : Node :=
  .visit statement name (.int 0 :: (List.range dims).map fun d => Expr.name (iteratorName d))

def Visits (statement : Nat) (name : String) (dims : Nat) (P : (Nat → Int) → Prop) (v : Visit) : Prop :=
  ∃ y : List Int, v = ⟨statement, name, 0 :: y⟩ ∧ y.length = dims ∧ P (valuation y)

private theorem execute_visiting {env : Env} {dims : List Nat} {x : Nat → Int} (henv : Binds env dims x)
    {n : Nat} (hdims : ∀ d, d ∈ dims ↔ d < n) (statement : Nat) (name : String)
    (R : Visit → Visit → Prop) :
    ((visiting statement name n).execute env).Makes env
      (Visits statement name n fun y => ∀ d ∈ dims, y d = x d) R := by
  have hvalues : Expr.evalAll env ((List.range n).map fun d => Expr.name (iteratorName d)) =
      .ok ((List.range n).map x) := by
    refine evalAll_of_forall₂ ?_
    rw [List.forall₂_map_left_iff, List.forall₂_map_right_iff, List.forall₂_same]
    intro d hd
    exact eval_name (henv d ((hdims d).mpr (List.mem_range.mp hd)))
  have hall : Expr.evalAll env (.int 0 :: (List.range n).map fun d => Expr.name (iteratorName d)) =
      .ok (0 :: (List.range n).map x) := by
    rw [Expr.evalAll, hvalues]
    rfl
  rw [visiting, Node.execute]
  refine Trace.Makes.after (b := 0 :: (List.range n).map x) (by rw [hall]; rfl) ?_
  refine ((Trace.Makes.emit ⟨statement, name, 0 :: (List.range n).map x⟩ R).returning env).congr
    fun v => ⟨?_, ?_⟩
  · rintro rfl
    refine ⟨_, rfl, by simp, fun d hd => ?_⟩
    simp [valuation, List.getD_eq_getElem?_getD, (hdims d).mp hd]
  · rintro ⟨y, rfl, hlength, hy⟩
    have heq : y = (List.range n).map x := by
      refine List.ext_getElem (by simp [hlength]) fun d hd hd' => ?_
      have hvalue := hy d ((hdims d).mpr (by omega))
      simpa [valuation, List.getD_eq_getElem?_getD, hd] using hvalue
    rw [heq]

/-- The loops over some dimensions visit the points with the given outer coordinates that satisfy the
rows of every loop, in the order of the coordinates that are looped over. -/
theorem execute_innerLoops (hdomain : domain.Regular) {rest : List Nat} {node : Node} {statement n : Nat}
    {name : String} (h : innerLoops domain (visiting statement name n) outer rest = .ok node)
    (hnodup : (outer ++ rest).Nodup) (hdims : ∀ d, d ∈ outer ++ rest ↔ d < n) {env : Env}
    {x : Nat → Int} (henv : Binds env outer x) :
    (node.execute env).Makes env
      (Visits statement name n fun y => (∀ e ∈ outer, y e = x e) ∧ Fits domain outer rest y)
      fun v w => rest.map v.at < rest.map w.at := by
  induction rest generalizing outer node env x with
  | nil =>
    cases h
    rw [List.append_nil] at hdims
    refine (execute_visiting henv hdims statement name _).congr fun v => ?_
    simp [Visits, Fits]
  | cons d rest ih =>
    obtain ⟨body, hbody, h⟩ := Outcome.bind_eq_ok h
    obtain ⟨⟨lower, upper⟩, hbounds, h⟩ := Outcome.bind_eq_ok h
    cases h
    have hassoc : outer ++ d :: rest = outer ++ [d] ++ rest := by simp
    rw [hassoc] at hnodup hdims
    have hnodup' : (outer ++ [d]).Nodup := (List.nodup_append.mp hnodup).1
    have hd : d ∉ outer := fun hmem => (List.nodup_append.mp hnodup').2.2 d hmem d (by simp) rfl
    obtain ⟨lo, hi, hlo, hhi, hiff⟩ := eval_loopBounds hdomain hnodup' hbounds henv
    have hloop : ∀ t, lo ≤ t → t ≤ hi →
        (Node.executeAll ((iteratorName d, t) :: env) [body]).Makes ()
          (Visits statement name n fun y => (∀ e ∈ outer ++ [d], y e = Function.update x d t e) ∧
            Fits domain (outer ++ [d]) rest y)
          fun v w => (d :: rest).map v.at < (d :: rest).map w.at := by
      intro t _ _
      have henv' : Binds ((iteratorName d, t) :: env) (outer ++ [d]) (Function.update x d t) := by
        have hbinds : Binds env outer (Function.update x d t) := by
          intro e he
          rw [Function.update_of_ne (by rintro rfl; exact hd he)]
          exact henv e he
        have hcons := binds_cons hbinds hd
        rwa [Function.update_self] at hcons
      refine (Node.executeAll_singleton (ih hbody hnodup hdims henv')).imp ?_
      rintro v w ⟨y, rfl, -, hy, -⟩ ⟨z, rfl, -, hz, -⟩ hlt
      rw [List.map_cons, List.map_cons, List.cons_lt_cons_iff]
      refine .inr ⟨?_, hlt⟩
      exact (hy d (by simp)).trans (hz d (by simp)).symm
    refine (Node.execute_loop hlo hhi hloop ?_).congr fun v => ⟨?_, ?_⟩
    · rintro t u v w htu ⟨y, rfl, -, hy, -⟩ ⟨z, rfl, -, hz, -⟩
      rw [List.map_cons, List.map_cons, List.cons_lt_cons_iff]
      left
      have hyd : valuation y d = t := by rw [hy d (by simp), Function.update_self]
      have hzd : valuation z d = u := by rw [hz d (by simp), Function.update_self]
      change valuation y d < valuation z d
      rwa [hyd, hzd]
    · rintro ⟨t, hle, hge, y, rfl, hlength, hy, hfits⟩
      refine ⟨y, rfl, hlength, fun e he => ?_, ?_, hfits⟩
      · rw [hy e (by simp [he]), Function.update_of_ne (by rintro rfl; exact hd he)]
      · exact (within_congr hdomain hnodup' hy).mpr ((hiff t).mp ⟨hle, hge⟩)
    · rintro ⟨y, rfl, hlength, hy, hwithin, hfits⟩
      have hagree : ∀ e ∈ outer ++ [d], valuation y e = Function.update x d (valuation y d) e := by
        intro e he
        rcases List.mem_append.mp he with hin | hin
        · rw [Function.update_of_ne (by rintro rfl; exact hd hin)]
          exact hy e hin
        · obtain rfl := List.mem_singleton.mp hin
          rw [Function.update_self]
      have hrange := (hiff (valuation y d)).mpr ((within_congr hdomain hnodup' hagree).mp hwithin)
      exact ⟨valuation y d, hrange.1, hrange.2, y, rfl, hlength, hagree, hfits⟩

theorem fits_of_solves (hdomain : domain.Regular) {rest : List Nat} (hnodup : (outer ++ rest).Nodup)
    {x : Nat → Int} (hx : Solves x domain.cons) : Fits domain outer rest x := by
  induction rest generalizing outer with
  | nil => trivial
  | cons d rest ih =>
    have hassoc : outer ++ d :: rest = outer ++ [d] ++ rest := by simp
    rw [hassoc] at hnodup
    have hnodup' : (outer ++ [d]).Nodup := (List.nodup_append.mp hnodup).1
    exact ⟨fun c hc _ => PointSet.solves_projection hdomain hnodup' hx c hc, ih hnodup⟩

/-- Conversely, a point that satisfies the rows of every loop is in the set, as far as constraints on
the outer dimensions allow. -/
theorem solves_of_fits (hdomain : domain.Regular) (hlocals : domain.locals = 0) {rest : List Nat}
    {innermost node : Node} (h : innerLoops domain innermost outer rest = .ok node)
    (hnodup : (outer ++ rest).Nodup) (hdims : ∀ d, d ∈ outer ++ rest ↔ d < domain.dims) {x : Nat → Int}
    (houter : ∀ c ∈ domain.cons, (∀ v, c.coeff v ≠ 0 → v ∈ outer) → c.Admits x)
    (hfits : Fits domain outer rest x) : Solves x domain.cons := by
  induction rest generalizing outer node with
  | nil =>
    intro c hc
    refine houter c hc fun v hv => ?_
    rw [List.append_nil] at hdims
    refine (hdims v).mpr ?_
    by_contra hge
    have hvars : c.vars = domain.dims + domain.locals := hdomain c hc
    exact hv (Affine.coeff_of_le (show c.vars ≤ v by omega))
  | cons d rest ih =>
    obtain ⟨body, hbody, h⟩ := Outcome.bind_eq_ok h
    obtain ⟨bounds, hbounds, -⟩ := Outcome.bind_eq_ok h
    obtain ⟨hwithin, hfits⟩ := hfits
    have hassoc : outer ++ d :: rest = outer ++ [d] ++ rest := by simp
    rw [hassoc] at hnodup hdims
    have hnodup' : (outer ++ [d]).Nodup := (List.nodup_append.mp hnodup).1
    refine ih hbody hnodup hdims (fun c hc hsupport => ?_) hfits
    by_cases hzero : c.coeff d = 0
    · refine houter c hc fun v hv => ?_
      rcases List.mem_append.mp (hsupport v hv) with hin | hin
      · exact hin
      · obtain rfl := List.mem_singleton.mp hin
        exact absurd hzero hv
    · -- The last dimension of the constraint is the one of this loop, whose rows imply it.
      obtain ⟨r, hr, hmention⟩ := exists_mention hbounds
      obtain ⟨r', hr', himplies, hcoeffs⟩ := PointSet.projection_retains hdomain hnodup'
        ⟨r, hr, _, hmention⟩ hc hsupport ⟨d, hzero⟩
      refine himplies x (hwithin r' hr' ?_)
      rw [Ne, hcoeffs outer.length (by simp)]
      simpa [List.getD_eq_getElem?_getD] using hzero

end StreamLoom.Nest
