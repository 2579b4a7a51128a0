import Mathlib.Algebra.Order.Field.Basic
import Mathlib.Tactic.FieldSimp
import StreamLoom.Proofs.Affine.Tightening

/-!
# Elimination of variables

Eliminating variables projects the solutions of a system. `Projects vars cs rows` says how far this
goes: integer solutions stay solutions, and a rational solution of what is left can be completed by
values of the eliminated variables. The two do not meet, since a rational value need not be an integer.
They do meet where an equality has the variable with a coefficient of one, and where no row mentions
it, which is all that removing locals relies on.
-/

namespace StreamLoom

attribute [local instance] Arithmetic.exact

namespace System

structure Projects (vars : List Nat) (cs rows : List Constraint) : Prop where
  width : ∀ n, Over n cs → Over n rows
  sound : ∀ x : Nat → Int, Solves x cs → Solves x rows
  lifts : ∀ x : Nat → ℚ, Solves x rows → ∃ y : Nat → ℚ, (∀ i, i ∉ vars → y i = x i) ∧ Solves y cs
  gone : ∀ v ∈ vars, ∀ r ∈ rows, r.coeff v = 0
  unmentioned : ∀ v, (∀ c ∈ cs, c.coeff v = 0) → ∀ r ∈ rows, r.coeff v = 0
  retains : ∀ c ∈ cs, (∀ v ∈ vars, c.coeff v = 0) → (∃ v, c.coeff v ≠ 0) → Retains rows c

namespace Projects

theorem ofTightens {cs rows : List Constraint} (h : Tightens cs rows) : Projects [] cs rows where
  width := h.width
  sound := h.sound
  lifts x hx := ⟨x, fun _ _ => rfl, h.complete x hx⟩
  gone := by simp
  unmentioned := h.unmentioned
  retains c hc _ := h.retains c hc

theorem trans {vars vars' : List Nat} {cs rows rows' : List Constraint} (h : Projects vars cs rows)
    (h' : Projects vars' rows rows') : Projects (vars ++ vars') cs rows' where
  width n hn := h'.width n (h.width n hn)
  sound x hx := h'.sound x (h.sound x hx)
  lifts x hx := by
    obtain ⟨y, hy, hsolves⟩ := h'.lifts x hx
    obtain ⟨z, hz, hsolves'⟩ := h.lifts y hsolves
    refine ⟨z, fun i hi => ?_, hsolves'⟩
    rw [List.mem_append, not_or] at hi
    exact (hz i hi.1).trans (hy i hi.2)
  gone v hv := by
    rcases List.mem_append.mp hv with hv | hv
    · exact h'.unmentioned v (h.gone v hv)
    · exact h'.gone v hv
  unmentioned v hv := h'.unmentioned v (h.unmentioned v hv)
  retains c hc hvars hmentions := by
    obtain ⟨r, hr, himplies, hcoeffs⟩ := h.retains c hc
      (fun v hv => hvars v (List.mem_append_left _ hv)) hmentions
    obtain ⟨v, hv⟩ := hmentions
    obtain ⟨r', hr', himplies', hcoeffs'⟩ := h'.retains r hr
      (fun w hw => (hcoeffs w).mpr (hvars w (List.mem_append_right _ hw)))
      ⟨v, fun hz => hv ((hcoeffs v).mp hz)⟩
    exact ⟨r', hr', fun x hx => himplies x (himplies' x hx),
      fun w => (hcoeffs' w).trans (hcoeffs w)⟩

theorem congr_vars {vars vars' : List Nat} {cs rows : List Constraint}
    (hmem : ∀ v, v ∈ vars ↔ v ∈ vars') (h : Projects vars cs rows) : Projects vars' cs rows where
  width := h.width
  sound := h.sound
  lifts x hx := by
    obtain ⟨y, hy, hsolves⟩ := h.lifts x hx
    exact ⟨y, fun i hi => hy i (fun hi' => hi ((hmem i).mp hi')), hsolves⟩
  gone v hv := h.gone v ((hmem v).mpr hv)
  unmentioned := h.unmentioned
  retains c hc hvars := h.retains c hc fun v hv => hvars v ((hmem v).mp hv)

end Projects

/-! ### Pivots -/

/-- The best pivot of some rows is an equality with the least coefficient, if there is an equality. -/
private structure Pivots (v : Nat) (rows : List Constraint) (best : Option Constraint) : Prop where
  eligible : ∀ e, best = some e → e ∈ rows ∧ e.equality = true ∧ e.coeff v ≠ 0
  least : ∀ r ∈ rows, r.equality = true → r.coeff v ≠ 0 →
    ∃ e, best = some e ∧ (e.coeff v).natAbs ≤ (r.coeff v).natAbs

private theorem betterPivot_cases (v : Nat) (best : Option Constraint) (r : Constraint) :
    (r.equality = true → r.coeff v = 0) ∧ betterPivot v best r = best ∨
    (r.equality = true ∧ r.coeff v ≠ 0) ∧ betterPivot v best r = some r ∧
      (∀ b, best = some b → (r.coeff v).natAbs ≤ (b.coeff v).natAbs) ∨
    ∃ b, best = some b ∧ betterPivot v best r = some b ∧ (b.coeff v).natAbs ≤ (r.coeff v).natAbs := by
  by_cases hskip : r.equality = true → r.coeff v = 0
  · exact .inl ⟨hskip, if_pos (by cases heq : r.equality <;> simp_all)⟩
  · rw [Classical.not_imp] at hskip
    have hnot : ¬ (!r.equality || decide (r.coeff v = 0)) = true := by simp [hskip]
    unfold betterPivot
    rw [if_neg hnot]
    cases best with
    | none => exact .inr (.inl ⟨hskip, rfl, by simp⟩)
    | some b =>
      simp only [Arithmetic.abs_eq_natAbs]
      split
      · refine .inr (.inl ⟨hskip, rfl, fun b' hb' => ?_⟩)
        obtain rfl := Option.some.inj hb'
        omega
      · exact .inr (.inr ⟨b, rfl, rfl, by omega⟩)

private theorem Pivots.betterPivot {v : Nat} {rows : List Constraint} {best : Option Constraint}
    (h : Pivots v rows best) (r : Constraint) : Pivots v (rows ++ [r]) (betterPivot v best r) := by
  have hold : ∀ e, best = some e → e ∈ rows ++ [r] ∧ e.equality = true ∧ e.coeff v ≠ 0 := fun e he =>
    ⟨List.mem_append_left _ (h.eligible e he).1, (h.eligible e he).2⟩
  rcases betterPivot_cases v best r with ⟨hskip, heq⟩ | ⟨hr, heq, hle⟩ | ⟨b, hb, heq, hle⟩
  · rw [heq]
    refine ⟨hold, fun r' hr' hequality hne => ?_⟩
    rcases List.mem_append.mp hr' with hr' | hr'
    · exact h.least r' hr' hequality hne
    · obtain rfl := List.mem_singleton.mp hr'
      exact absurd (hskip hequality) hne
  · rw [heq]
    refine ⟨fun e he => ?_, fun r' hr' hequality hne => ⟨r, rfl, ?_⟩⟩
    · obtain rfl := Option.some.inj he
      exact ⟨by simp, hr⟩
    · rcases List.mem_append.mp hr' with hr' | hr'
      · obtain ⟨b, hb, hb'⟩ := h.least r' hr' hequality hne
        exact (hle b hb).trans hb'
      · rw [List.mem_singleton.mp hr']
  · rw [heq, ← hb]
    refine ⟨hold, fun r' hr' hequality hne => ?_⟩
    rcases List.mem_append.mp hr' with hr' | hr'
    · exact h.least r' hr' hequality hne
    · rw [List.mem_singleton.mp hr']
      exact ⟨b, hb, hle⟩

private theorem pivots_pivot? (rows : System) (v : Nat) : Pivots v rows (rows.pivot? v) := by
  have hfold : ∀ (rest done : List Constraint) (best : Option Constraint), Pivots v done best →
      Pivots v (done ++ rest) (rest.foldl (System.betterPivot v) best) := by
    intro rest
    induction rest with
    | nil =>
      intro done best h
      simpa using h
    | cons r rest ih =>
      intro done best h
      simpa using ih _ _ (h.betterPivot r)
  exact hfold rows [] none ⟨by simp, by simp⟩

theorem pivot?_eq_some {rows : System} {v : Nat} {e : Constraint} (h : rows.pivot? v = some e) :
    e ∈ rows ∧ e.equality = true ∧ e.coeff v ≠ 0 ∧
      ∀ r ∈ rows, r.equality = true → r.coeff v ≠ 0 → (e.coeff v).natAbs ≤ (r.coeff v).natAbs := by
  have hpivots := pivots_pivot? rows v
  obtain ⟨hmem, heq, hne⟩ := hpivots.eligible e h
  refine ⟨hmem, heq, hne, fun r hr hequality hne => ?_⟩
  obtain ⟨e', he', hle⟩ := hpivots.least r hr hequality hne
  rw [h] at he'
  obtain rfl := Option.some.inj he'
  exact hle

theorem pivot?_eq_none {rows : System} {v : Nat} (h : rows.pivot? v = none) :
    ∀ r ∈ rows, r.equality = true → r.coeff v = 0 := by
  intro r hr hequality
  by_contra hne
  obtain ⟨e, he, -⟩ := (pivots_pivot? rows v).least r hr hequality hne
  rw [h] at he
  cases he

/-! ### Substitution -/

/-- The form of an equality with the variable on its positive side. -/
def pivotForm (eq : Constraint) (v : Nat) : Affine :=
  if eq.coeff v < 0 then eq.form.neg else eq.form

theorem coeff_pivotForm (eq : Constraint) (v : Nat) :
    (pivotForm eq v).coeff v = ((eq.coeff v).natAbs : Int) := by
  unfold pivotForm
  split
  · rw [Affine.coeff_neg]
    simp only [Constraint.coeff] at *
    omega
  · simp only [Constraint.coeff] at *
    omega

theorem pivotForm_eq (eq : Constraint) (v : Nat) :
    pivotForm eq v = eq.form ∨ pivotForm eq v = eq.form.neg := by
  unfold pivotForm
  split
  · exact .inr rfl
  · exact .inl rfl

private theorem valueAt_pivotForm {K : Type} [CommRing K] (eq : Constraint) (v : Nat) (x : Nat → K) :
    (pivotForm eq v).valueAt x = 0 ↔ eq.form.valueAt x = 0 := by
  rcases pivotForm_eq eq v with h | h
  · rw [h]
  · rw [h, Affine.valueAt_neg, neg_eq_zero]

private def replaced (eq : Constraint) (v : Nat) (r : Constraint) : Constraint :=
  if r.coeff v = 0 then r
  else { r with form := (r.form.scale (eq.coeff v).natAbs).sub ((pivotForm eq v).scale (r.coeff v)) }

private theorem substitute_eq (rows : System) (eq : Constraint) (v : Nat) :
    rows.substitute eq v = (rows.erase eq).map (replaced eq v) := by
  have hreplaced : replaced eq v = fun r => if r.coeff v = 0 then r else { r with
      form := (r.form.scale ((pivotForm eq v).coeff v)).sub ((pivotForm eq v).scale (r.coeff v)) } := by
    funext r
    rw [replaced, coeff_pivotForm]
  rw [hreplaced]
  rfl

private theorem equality_replaced (eq : Constraint) (v : Nat) (r : Constraint) :
    (replaced eq v r).equality = r.equality := by
  unfold replaced
  split <;> rfl

section

variable {n : Nat} {eq r : Constraint} {v : Nat}

private theorem vars_pivotForm (heq : eq.vars = n) : (pivotForm eq v).vars = n := by
  have hform : eq.form.vars = n := heq
  rcases pivotForm_eq eq v with h | h <;> simpa [h] using hform

private theorem vars_replaced (heq : eq.vars = n) (hr : r.vars = n) :
    (replaced eq v r).vars = n := by
  unfold replaced
  split
  · exact hr
  · have hp : (pivotForm eq v).vars = n := vars_pivotForm heq
    have hr' : r.form.vars = n := hr
    simp [Constraint.vars, hp, hr']

private theorem coeff_replaced (heq : eq.vars = n) (hr : r.vars = n) (hv : r.coeff v ≠ 0) (w : Nat) :
    (replaced eq v r).coeff w =
      r.coeff w * (eq.coeff v).natAbs - (pivotForm eq v).coeff w * r.coeff v := by
  have hvars : (r.form.scale ((eq.coeff v).natAbs : Int)).vars =
      ((pivotForm eq v).scale (r.coeff v)).vars := by
    rw [Affine.vars_scale, Affine.vars_scale, vars_pivotForm heq]
    exact hr
  rw [replaced, if_neg hv]
  exact (Affine.coeff_sub hvars w).trans (by rw [Affine.coeff_scale, Affine.coeff_scale]; rfl)

private theorem valueAt_replaced {K : Type} [CommRing K] (heq : eq.vars = n) (hr : r.vars = n)
    (hv : r.coeff v ≠ 0) (x : Nat → K) : (replaced eq v r).form.valueAt x =
      ((eq.coeff v).natAbs : Int) * r.form.valueAt x - r.coeff v * (pivotForm eq v).valueAt x := by
  have hvars : (r.form.scale ((eq.coeff v).natAbs : Int)).vars =
      ((pivotForm eq v).scale (r.coeff v)).vars := by
    rw [Affine.vars_scale, Affine.vars_scale, vars_pivotForm heq]
    exact hr
  rw [replaced, if_neg hv, Affine.valueAt_sub hvars, Affine.valueAt_scale, Affine.valueAt_scale]

private theorem coeff_replaced_self (heq : eq.vars = n) (hr : r.vars = n) :
    (replaced eq v r).coeff v = 0 := by
  by_cases hv : r.coeff v = 0
  · rw [replaced, if_pos hv, hv]
  · rw [coeff_replaced heq hr hv, coeff_pivotForm]
    ring

variable {K : Type} [CommRing K] [LinearOrder K] [IsStrictOrderedRing K]

private theorem admits_replaced (heq : eq.vars = n) (hr : r.vars = n) (hne : eq.coeff v ≠ 0)
    {x : Nat → K} (hx : (pivotForm eq v).valueAt x = 0) :
    (replaced eq v r).Admits x ↔ r.Admits x := by
  by_cases hv : r.coeff v = 0
  · rw [replaced, if_pos hv]
  · have hpos : (0 : K) < (((eq.coeff v).natAbs : Int) : K) :=
      Int.cast_pos.mpr (by omega)
    rw [Constraint.Admits, Constraint.Admits, equality_replaced, valueAt_replaced heq hr hv, hx,
      mul_zero, sub_zero]
    split
    · rw [mul_eq_zero]
      exact or_iff_right hpos.ne'
    · exact mul_nonneg_iff_of_pos_left hpos

end

section

variable {n : Nat} {rows : System} {eq : Constraint} {v : Nat}

private theorem substitute_sound (hover : Over n rows) (hmem : eq ∈ rows)
    (hequality : eq.equality = true) (hne : eq.coeff v ≠ 0) (x : Nat → Int) (hx : Solves x rows) :
    Solves x (rows.substitute eq v) := by
  have hzero : (pivotForm eq v).valueAt x = 0 := by
    rw [valueAt_pivotForm]
    simpa [Constraint.Admits, hequality] using hx eq hmem
  rw [substitute_eq]
  intro r hr
  obtain ⟨r₀, hr₀, rfl⟩ := List.mem_map.mp hr
  have hr₀ := List.mem_of_mem_erase hr₀
  exact (admits_replaced (hover eq hmem) (hover r₀ hr₀) hne hzero).mpr (hx r₀ hr₀)

/-- A value of the variable that satisfies the equality completes a solution of the other rows. -/
private theorem substitute_lifts {K : Type} [CommRing K] [LinearOrder K] [IsStrictOrderedRing K]
    (hover : Over n rows) (hmem : eq ∈ rows) (hequality : eq.equality = true)
    (hne : eq.coeff v ≠ 0) {x : Nat → K} (hx : Solves x (rows.substitute eq v)) {t : K}
    (ht : (((eq.coeff v).natAbs : Int) : K) * (t - x v) = -(pivotForm eq v).valueAt x) :
    Solves (Function.update x v t) rows := by
  have hzero : (pivotForm eq v).valueAt (Function.update x v t) = 0 := by
    rw [Affine.valueAt_update, coeff_pivotForm, ht]
    ring
  intro r hr
  by_cases hreq : r = eq
  · subst hreq
    rw [Constraint.Admits, if_pos hequality]
    exact (valueAt_pivotForm r v _).mp hzero
  · have hr' : r ∈ rows.erase eq := (List.mem_erase_of_ne hreq).mpr hr
    rw [substitute_eq] at hx
    have hadmits := hx _ (List.mem_map_of_mem hr')
    -- the row does not mention the variable any more, hence does not see its new value
    rw [← admits_replaced (hover eq hmem) (hover r hr) hne hzero]
    refine (Constraint.admits_congr fun i hi => ?_).mp hadmits
    have hiv : i ≠ v := by
      rintro rfl
      exact hi (coeff_replaced_self (hover eq hmem) (hover r hr))
    simp [hiv]

private theorem substitute_projects (hover : Over n rows) (hmem : eq ∈ rows)
    (hequality : eq.equality = true) (hne : eq.coeff v ≠ 0) :
    Projects [v] rows (rows.substitute eq v) where
  width m hm := by
    rw [substitute_eq]
    intro r hr
    obtain ⟨r₀, hr₀, rfl⟩ := List.mem_map.mp hr
    exact vars_replaced (hm eq hmem) (hm r₀ (List.mem_of_mem_erase hr₀))
  sound := substitute_sound hover hmem hequality hne
  lifts x hx := by
    have hpos : (((eq.coeff v).natAbs : Int) : ℚ) ≠ 0 := Int.cast_ne_zero.mpr (by omega)
    refine ⟨Function.update x v (x v - (pivotForm eq v).valueAt x / ((eq.coeff v).natAbs : Int)),
      fun i hi => ?_, substitute_lifts hover hmem hequality hne hx ?_⟩
    · have hiv : i ≠ v := by simpa using hi
      simp [hiv]
    · field_simp
      ring
  gone w hw r hr := by
    obtain rfl := List.mem_singleton.mp hw
    rw [substitute_eq] at hr
    obtain ⟨r₀, hr₀, rfl⟩ := List.mem_map.mp hr
    exact coeff_replaced_self (hover eq hmem) (hover r₀ (List.mem_of_mem_erase hr₀))
  unmentioned w hw r hr := by
    rw [substitute_eq] at hr
    obtain ⟨r₀, hr₀, rfl⟩ := List.mem_map.mp hr
    have hr₀ := List.mem_of_mem_erase hr₀
    by_cases hv : r₀.coeff v = 0
    · rw [replaced, if_pos hv]
      exact hw r₀ hr₀
    · have hpivot : (pivotForm eq v).coeff w = 0 := by
        have hcoeff : eq.form.coeff w = 0 := hw eq hmem
        rcases pivotForm_eq eq v with h | h <;> simp [h, hcoeff]
      rw [coeff_replaced (hover eq hmem) (hover r₀ hr₀) hv, hw r₀ hr₀, hpivot]
      ring
  retains c hc hvars _ := by
    have hv : c.coeff v = 0 := hvars v (by simp)
    have hceq : c ≠ eq := by
      rintro rfl
      exact hne hv
    apply retains_of_mem
    rw [substitute_eq]
    refine List.mem_map.mpr ⟨c, (List.mem_erase_of_ne hceq).mpr hc, ?_⟩
    rw [replaced, if_pos hv]

end

/-! ### Shadows -/

/-- A lower and an upper bound of a variable, combined such that the variable cancels. -/
private def paired (v : Nat) (p q : Constraint) : Affine :=
  (p.form.scale (-q.coeff v)).add (q.form.scale (p.coeff v))

private theorem mem_shadow {rows : System} {v : Nat} {r : Constraint} :
    r ∈ rows.shadow v ↔ (r ∈ rows ∧ r.coeff v = 0) ∨
      ∃ p ∈ rows, ∃ q ∈ rows, 0 < p.coeff v ∧ q.coeff v < 0 ∧ r = .atLeast (paired v p q) := by
  simp only [shadow, Arithmetic.fit_exact, List.mem_append, List.mem_filter, List.mem_flatMap,
    List.mem_map, decide_eq_true_eq, paired]
  constructor
  · rintro (h | ⟨p, ⟨hp, hpos⟩, q, ⟨hq, hneg⟩, rfl⟩)
    · exact .inl h
    · exact .inr ⟨p, hp, q, hq, hpos, hneg, rfl⟩
  · rintro (h | ⟨p, hp, q, hq, hpos, hneg, rfl⟩)
    · exact .inl h
    · exact .inr ⟨p, ⟨hp, hpos⟩, q, ⟨hq, hneg⟩, rfl⟩

section

variable {n : Nat} {v : Nat} {p q : Constraint}

private theorem vars_scales (hp : p.vars = n) (hq : q.vars = n) :
    (p.form.scale (-q.coeff v)).vars = (q.form.scale (p.coeff v)).vars := by
  rw [Affine.vars_scale, Affine.vars_scale]
  exact hp.trans hq.symm

private theorem valueAt_paired {K : Type} [CommRing K] (hp : p.vars = n) (hq : q.vars = n)
    (x : Nat → K) : (paired v p q).valueAt x =
      ((-q.coeff v : Int) : K) * p.form.valueAt x + p.coeff v * q.form.valueAt x := by
  rw [paired, Affine.valueAt_add (vars_scales hp hq), Affine.valueAt_scale, Affine.valueAt_scale]

private theorem coeff_paired (hp : p.vars = n) (hq : q.vars = n) (w : Nat) :
    (paired v p q).coeff w = p.coeff w * -q.coeff v + q.coeff w * p.coeff v := by
  rw [paired, Affine.coeff_add (vars_scales hp hq), Affine.coeff_scale, Affine.coeff_scale]
  rfl

end

private theorem exists_between (ls us : List ℚ) (h : ∀ l ∈ ls, ∀ u ∈ us, l ≤ u) :
    ∃ t, (∀ l ∈ ls, l ≤ t) ∧ ∀ u ∈ us, t ≤ u := by
  induction ls with
  | nil =>
    induction us with
    | nil => exact ⟨0, by simp, by simp⟩
    | cons u us ih =>
      obtain ⟨t, -, ht⟩ := ih (by simp)
      refine ⟨min u t, by simp, fun u' hu' => ?_⟩
      rcases List.mem_cons.mp hu' with rfl | hu'
      · exact min_le_left _ _
      · exact (min_le_right _ _).trans (ht u' hu')
  | cons l ls ih =>
    obtain ⟨t, hl, hu⟩ := ih fun l' hl' => h l' (by simp [hl'])
    refine ⟨max l t, fun l' hl' => ?_, fun u hmem => max_le (h l (by simp) u hmem) (hu u hmem)⟩
    rcases List.mem_cons.mp hl' with rfl | hl'
    · exact le_max_left _ _
    · exact (hl l' hl').trans (le_max_right _ _)

/-- Fourier and Motzkin: a solution of the shadow has a value for the variable. -/
private theorem shadow_lifts {n : Nat} {rows : System} {v : Nat} (hover : Over n rows)
    (hnone : ∀ r ∈ rows, r.equality = true → r.coeff v = 0) {x : Nat → ℚ}
    (hx : Solves x (rows.shadow v)) : ∃ t, Solves (Function.update x v t) rows := by
  -- the value at which a row becomes zero bounds the variable
  let root (r : Constraint) : ℚ := x v - r.form.valueAt x / r.coeff v
  obtain ⟨t, hlower, hupper⟩ := exists_between ((rows.filter (·.coeff v > 0)).map root)
    ((rows.filter (·.coeff v < 0)).map root) (by
      intro l hl u hu
      obtain ⟨p, hp, rfl⟩ := List.mem_map.mp hl
      obtain ⟨q, hq, rfl⟩ := List.mem_map.mp hu
      rw [List.mem_filter, decide_eq_true_eq] at hp hq
      have hpos : (0 : ℚ) < p.coeff v := Int.cast_pos.mpr hp.2
      have hneg : (q.coeff v : ℚ) < 0 := Int.cast_lt_zero.mpr hq.2
      have hpair := hx _ (mem_shadow.mpr (.inr ⟨p, hp.1, q, hq.1, hp.2, hq.2, rfl⟩))
      rw [Constraint.admits_atLeast, valueAt_paired (hover p hp.1) (hover q hq.1)] at hpair
      push_cast at hpair
      have hquotients : q.form.valueAt x / q.coeff v ≤ p.form.valueAt x / p.coeff v := by
        rw [← sub_nonneg, div_sub_div _ _ hpos.ne' hneg.ne]
        exact div_nonneg_of_nonpos (by linarith) (mul_nonpos_of_nonneg_of_nonpos hpos.le hneg.le)
      simp only [root]
      linarith)
  refine ⟨t, fun r hr => ?_⟩
  by_cases hzero : r.coeff v = 0
  · have hadmits := hx r (mem_shadow.mpr (.inl ⟨hr, hzero⟩))
    refine (Constraint.admits_congr fun i hi => ?_).mp hadmits
    have hiv : i ≠ v := by
      rintro rfl
      exact hi hzero
    simp [hiv]
  · have hequality : r.equality = false := by
      by_contra h
      exact hzero (hnone r hr (by simpa using h))
    have hne : (r.coeff v : ℚ) ≠ 0 := Int.cast_ne_zero.mpr hzero
    rw [Constraint.Admits, if_neg (by simp [hequality]), Affine.valueAt_update]
    have hroot : r.form.valueAt x + r.form.coeff v * (t - x v) = r.coeff v * (t - root r) := by
      simp only [root, Constraint.coeff] at hne ⊢
      field_simp
      ring
    rw [hroot]
    rcases lt_or_gt_of_ne hzero with hneg | hpos
    · have hle := hupper (root r) (List.mem_map_of_mem (List.mem_filter.mpr ⟨hr, by simpa using hneg⟩))
      exact mul_nonneg_of_nonpos_of_nonpos (Int.cast_nonpos.mpr hneg.le) (by linarith)
    · have hle := hlower (root r) (List.mem_map_of_mem (List.mem_filter.mpr ⟨hr, by simpa using hpos⟩))
      exact mul_nonneg (Int.cast_nonneg hpos.le) (by linarith)

private theorem shadow_projects {n : Nat} {rows : System} {v : Nat} (hover : Over n rows)
    (hnone : ∀ r ∈ rows, r.equality = true → r.coeff v = 0) : Projects [v] rows (rows.shadow v) where
  width m hm r hr := by
    rcases mem_shadow.mp hr with ⟨hr, _⟩ | ⟨p, hp, q, hq, _, _, rfl⟩
    · exact hm r hr
    · have hp' : p.form.vars = m := hm p hp
      have hq' : q.form.vars = m := hm q hq
      simp [paired, hp', hq']
  sound x hx r hr := by
    rcases mem_shadow.mp hr with ⟨hr, _⟩ | ⟨p, hp, q, hq, hpos, hneg, rfl⟩
    · exact hx r hr
    · have hpx := hx p hp
      have hqx := hx q hq
      have hpeq : ¬ p.equality = true := fun h => hpos.ne' (hnone p hp h)
      have hqeq : ¬ q.equality = true := fun h => hneg.ne (hnone q hq h)
      rw [Constraint.Admits, if_neg hpeq] at hpx
      rw [Constraint.Admits, if_neg hqeq] at hqx
      rw [Constraint.admits_atLeast, valueAt_paired (hover p hp) (hover q hq)]
      exact add_nonneg (mul_nonneg (by simpa using hneg.le) hpx) (mul_nonneg (by simpa using hpos.le) hqx)
  lifts x hx := by
    obtain ⟨t, ht⟩ := shadow_lifts hover hnone hx
    refine ⟨Function.update x v t, fun i hi => ?_, ht⟩
    have hiv : i ≠ v := by simpa using hi
    simp [hiv]
  gone w hw r hr := by
    obtain rfl := List.mem_singleton.mp hw
    rcases mem_shadow.mp hr with ⟨_, hzero⟩ | ⟨p, hp, q, hq, _, _, rfl⟩
    · exact hzero
    · have hcoeff := coeff_paired (v := w) (hover p hp) (hover q hq) w
      simp only [Constraint.coeff, Constraint.atLeast] at hcoeff ⊢
      rw [hcoeff]
      ring
  unmentioned w hw r hr := by
    rcases mem_shadow.mp hr with ⟨hr, _⟩ | ⟨p, hp, q, hq, _, _, rfl⟩
    · exact hw r hr
    · have hcoeff := coeff_paired (v := v) (hover p hp) (hover q hq) w
      rw [hw p hp, hw q hq] at hcoeff
      simpa [Constraint.coeff, Constraint.atLeast] using hcoeff
  retains c hc hvars _ := retains_of_mem (mem_shadow.mpr (.inl ⟨hc, hvars v (by simp)⟩))

/-! ### Elimination -/

/-- The rows of an elimination before they are brought into lowest terms. -/
private theorem eliminate_cases {n : Nat} {rows : System} (v : Nat) (hover : Over n rows) :
    ∃ cs, rows.eliminate v = ofConstraints cs ∧ Projects [v] rows cs := by
  unfold eliminate
  split
  · rename_i eq heq
    obtain ⟨hmem, hequality, hne, _⟩ := pivot?_eq_some heq
    exact ⟨_, rfl, substitute_projects hover hmem hequality hne⟩
  · rename_i hnone
    exact ⟨_, rfl, shadow_projects hover (pivot?_eq_none hnone)⟩

theorem eliminate_projects {n : Nat} {rows rows' : System} {v : Nat} (hover : Over n rows)
    (h : rows.eliminate v = some rows') : Projects [v] rows rows' := by
  obtain ⟨cs, hcs, hprojects⟩ := eliminate_cases v hover
  rw [hcs] at h
  exact (hprojects.trans (.ofTightens (ofConstraints_tightens h))).congr_vars (by simp)

theorem not_solves_of_eliminate {n : Nat} {rows : System} {v : Nat} (hover : Over n rows)
    (h : rows.eliminate v = none) (x : Nat → Int) : ¬ Solves x rows := by
  obtain ⟨cs, hcs, hprojects⟩ := eliminate_cases v hover
  rw [hcs] at h
  exact fun hx => not_solves_of_ofConstraints h x (hprojects.sound x hx)

/-- An equality with a coefficient of one defines the variable among the integers. -/
theorem eliminate_lifts_of_unit {n : Nat} {rows rows' : System} {v : Nat} (hover : Over n rows)
    (h : rows.eliminate v = some rows') {r : Constraint} (hr : r ∈ rows) (hequality : r.equality = true)
    (hunit : (r.coeff v).natAbs = 1) {x : Nat → Int} (hx : Solves x rows') :
    ∃ t, Solves (Function.update x v t) rows := by
  have hne : r.coeff v ≠ 0 := by omega
  unfold eliminate at h
  split at h
  · rename_i eq heq
    obtain ⟨hmem, heqequality, heqne, hleast⟩ := pivot?_eq_some heq
    have hone : (eq.coeff v).natAbs = 1 := by
      have hle := hleast r hr hequality hne
      omega
    refine ⟨x v - (pivotForm eq v).valueAt x, substitute_lifts hover hmem heqequality heqne
      ((ofConstraints_tightens h).complete x hx) ?_⟩
    rw [hone]
    simp
  · rename_i hnone
    exact absurd (pivot?_eq_none hnone r hr hequality) hne

theorem eliminate_lifts_of_unmentioned {rows rows' : System} {v : Nat}
    (h : rows.eliminate v = some rows') (hunmentioned : ∀ r ∈ rows, r.coeff v = 0) {x : Nat → Int}
    (hx : Solves x rows') : Solves x rows := by
  unfold eliminate at h
  split at h
  · rename_i eq heq
    obtain ⟨hmem, _, hne, _⟩ := pivot?_eq_some heq
    exact absurd (hunmentioned eq hmem) hne
  · intro r hr
    exact (ofConstraints_tightens h).complete x hx r (mem_shadow.mpr (.inl ⟨hr, hunmentioned r hr⟩))

private theorem foldl_cheapest_mem (rows : System) (rest : List Nat) (best : Nat × Cost) :
    (rest.foldl (fun (best, price) v =>
      let price' := rows.cost v
      if price'.cheaper price then (v, price') else (best, price)) best).1 ∈ best.1 :: rest := by
  induction rest generalizing best with
  | nil => simp
  | cons v rest ih =>
    obtain ⟨b, price⟩ := best
    rw [List.foldl_cons]
    by_cases hcheaper : (rows.cost v).cheaper price = true
    · have hmem := ih (v, rows.cost v)
      simp only [hcheaper, if_true]
      exact List.mem_cons_of_mem _ hmem
    · have hmem := ih (b, price)
      simp only [hcheaper]
      rcases List.mem_cons.mp hmem with hmem | hmem
      · exact List.mem_cons.mpr (.inl hmem)
      · exact List.mem_cons_of_mem _ (List.mem_cons_of_mem _ hmem)

theorem cheapest_mem (rows : System) (first : Nat) (rest : List Nat) :
    rows.cheapest first rest ∈ first :: rest :=
  foldl_cheapest_mem rows rest (first, rows.cost first)

private theorem mem_erase_or {vars : List Nat} {w : Nat} (hw : w ∈ vars) (v : Nat) :
    v ∈ w :: vars.erase w ↔ v ∈ vars := by
  rw [List.mem_cons]
  by_cases h : v = w
  · simp [h, hw]
  · simp [h, List.mem_erase_of_ne h]

theorem eliminateSome_projects {n : Nat} {vars : List Nat} {rows rows' : System} (hover : Over n rows)
    (h : eliminateSome vars.length vars rows = some rows') : Projects vars rows rows' := by
  generalize hcount : vars.length = count at h
  induction count generalizing vars rows with
  | zero =>
    obtain rfl := List.length_eq_zero_iff.mp hcount
    obtain rfl : rows = rows' := by simpa [eliminateSome] using h
    exact .ofTightens (.refl rows)
  | succ count ih =>
    cases vars with
    | nil => simp at hcount
    | cons v vs =>
      rw [eliminateSome] at h
      obtain ⟨rows₁, hfirst, hrest⟩ := Option.bind_eq_some_iff.mp h
      have hmem := cheapest_mem rows v vs
      have hstep := eliminate_projects hover hfirst
      have hlength : ((v :: vs).erase (rows.cheapest v vs)).length = count := by
        rw [List.length_erase_of_mem hmem, hcount]
        rfl
      exact (hstep.trans (ih (hstep.width n hover) hlength hrest)).congr_vars (mem_erase_or hmem)

theorem not_solves_of_eliminateSome {n count : Nat} {vars : List Nat} {rows : System}
    (hover : Over n rows) (h : eliminateSome count vars rows = none) (x : Nat → Int) :
    ¬ Solves x rows := by
  induction count generalizing vars rows with
  | zero => simp [eliminateSome] at h
  | succ count ih =>
    cases vars with
    | nil => simp [eliminateSome] at h
    | cons v vs =>
      rw [eliminateSome] at h
      cases hfirst : rows.eliminate (rows.cheapest v vs) with
      | none => exact not_solves_of_eliminate hover hfirst x
      | some rows₁ =>
        rw [hfirst, Option.bind_some] at h
        have hstep := eliminate_projects hover hfirst
        exact fun hx => ih (hstep.width n hover) h (hstep.sound x hx)

theorem project_projects {n : Nat} {cs : List Constraint} {vars : List Nat} {rows : System}
    (hover : Over n cs) (h : project cs vars = some rows) : Projects vars cs rows := by
  obtain ⟨rows₁, hbuilt, heliminated⟩ := Option.bind_eq_some_iff.mp h
  have htightens := ofConstraints_tightens hbuilt
  exact ((Projects.ofTightens htightens).trans
    (eliminateSome_projects (htightens.width n hover) heliminated)).congr_vars (by simp)

theorem not_solves_of_project {n : Nat} {cs : List Constraint} {vars : List Nat} (hover : Over n cs)
    (h : project cs vars = none) (x : Nat → Int) : ¬ Solves x cs := by
  cases hbuilt : ofConstraints cs with
  | none => exact not_solves_of_ofConstraints hbuilt x
  | some rows =>
    have htightens := ofConstraints_tightens hbuilt
    have hnone : eliminateSome vars.length vars rows = none := by
      simpa [project, hbuilt, eliminateAll] using h
    exact fun hx => not_solves_of_eliminateSome (htightens.width n hover) hnone x (htightens.sound x hx)

/-! ### What is left is in lowest terms -/

theorem eliminate_lowest {rows rows' : System} {v : Nat} (h : rows.eliminate v = some rows') :
    ∀ r ∈ rows', r.Lowest := by
  unfold eliminate at h
  split at h
  · exact ofConstraints_lowest h
  · exact ofConstraints_lowest h

theorem project_lowest {cs : List Constraint} {vars : List Nat} {rows : System}
    (h : project cs vars = some rows) : ∀ r ∈ rows, r.Lowest := by
  obtain ⟨rows₁, hbuilt, heliminated⟩ := Option.bind_eq_some_iff.mp h
  have hlowest := ofConstraints_lowest hbuilt
  unfold eliminateAll at heliminated
  generalize vars.length = count at heliminated
  clear h hbuilt
  induction count generalizing vars rows₁ with
  | zero =>
    obtain rfl : rows₁ = rows := by simpa [eliminateSome] using heliminated
    exact hlowest
  | succ count ih =>
    cases vars with
    | nil =>
      obtain rfl : rows₁ = rows := by simpa [eliminateSome] using heliminated
      exact hlowest
    | cons v vs =>
      rw [eliminateSome] at heliminated
      obtain ⟨rows₂, hfirst, hrest⟩ := Option.bind_eq_some_iff.mp heliminated
      exact ih rows₂ (eliminate_lowest hfirst) hrest

end System

end StreamLoom
