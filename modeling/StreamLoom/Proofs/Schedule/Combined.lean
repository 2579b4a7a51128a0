import StreamLoom.Proofs.Relation.Algebra
import StreamLoom.Proofs.Schedule.Causality

/-!
# Times as relations

The combined time exists twice. `time?` looks at one point, which it moves into the first period, and
`combined` relates all points of a statement to their times, with a period that is quantified. Both say
the same because the period of a point is determined by its flow index: it is the quotient by which the
point is moved. That no two instances share a time is a matter of either phase, since the first component
of a time tells the phases apart, and within a phase equal times are times of which neither is earlier.
-/

namespace StreamLoom

attribute [local instance] Arithmetic.exact

open StreamLoom.System (Solves Over)

namespace Schedule

variable {s : Schedule} {m : Model} {i : Nat} {st : Statement} {p : Placement}

/-- The relations of a statement in the combined time, at most one for each phase. -/
def contributions (s : Schedule) (m : Model) (i : Nat) : List Relation :=
  ((s.prologue.placement? i).map (s.prologueTimes i)).toList ++
    ((s.steady.placement? i).map (s.steadyTimes m i)).toList

theorem mem_contributions_iff {r : Relation} : r ∈ s.contributions m i ↔
    (∃ p, s.prologue.placement? i = some p ∧ r = s.prologueTimes i p) ∨
      ∃ p, s.steady.placement? i = some p ∧ r = s.steadyTimes m i p := by
  simp [contributions, eq_comm]

theorem mem_combined_iff {r : Relation} :
    r ∈ (s.combined m).relations ↔ ∃ i, r ∈ s.contributions m i := by
  have hearly : r ∈ s.prologueRelations.relations ↔
      ∃ i p, s.prologue.placement? i = some p ∧ r = s.prologueTimes i p := by
    simp [prologueRelations, mem_present_iff, eq_comm]
  have hlate : r ∈ (s.steadyRelations m).relations ↔
      ∃ i p, s.steady.placement? i = some p ∧ r = s.steadyTimes m i p := by
    simp [steadyRelations, mem_present_iff, eq_comm]
  simp only [combined, RelationUnion.union, List.mem_append, hearly, hlate, mem_contributions_iff,
    exists_or]

/-! ### Rows -/

private theorem vars_padded {n width : Nat} {rows : List Affine} (hrows : ∀ row ∈ rows, row.vars = n) :
    ∀ row ∈ padded n width rows, row.vars = n := by
  intro row hrow
  rcases List.mem_append.mp hrow with hrow | hrow
  · exact hrows row hrow
  · rw [List.eq_of_mem_replicate hrow]
    simp

/-- The rows of the combined time that follow its first component. -/
private theorem map_padded (hcarrier : ∀ c, p.carrier = some c → c < p.dims) {width : Nat}
    (hwidth : 2 + p.inner.length ≤ width) (hle : width + 1 ≤ s.width) (x : Nat → Int) :
    (padded p.dims (s.width - 1) (p.rows width)).map (·.valueAt x) =
      p.timeAt x ++ List.replicate (s.width - 1 - (p.timeAt x).length) 0 := by
  have hlength : (p.timeAt x).length = 2 + p.inner.length := by
    rw [Placement.timeAt, List.length_cons, List.length_cons, List.length_map]
    omega
  have hzeros : width - 2 - p.inner.length + (s.width - 1 - width) =
      s.width - 1 - (2 + p.inner.length) := by omega
  rw [padded, Placement.length_rows hwidth, List.map_append, Placement.map_rows hcarrier hwidth,
    List.map_replicate, Affine.valueAt_constant, List.append_assoc, Int.cast_zero,
    List.replicate_append_replicate, hzeros, hlength]

private theorem filled_cons (first : Int) (time : List Int) :
    s.filled (first :: time) = first :: (time ++ List.replicate (s.width - 1 - time.length) 0) := by
  rw [filled, List.length_cons, Nat.sub_sub, Nat.add_comm 1]
  rfl

/-! ### The prologue -/

private theorem map_earlyRows (hp : s.Early i st p) (x : Nat → Int) :
    (padded p.dims s.width (.constant p.dims 0 :: p.rows s.prologue.width)).map (·.valueAt x) =
      s.earlyTime p x := by
  have hrest := map_padded hp.carrier_lt hp.width prologue_width_le x
  rw [padded, Nat.sub_sub, Nat.add_comm 1] at hrest
  rw [padded, List.length_cons, List.cons_append, List.map_cons, hrest, Affine.valueAt_constant, earlyTime,
    filled_cons, Nat.sub_sub]
  rfl

theorem relates_prologueTimes (hlocals : st.domain.locals = 0) (hregular : st.domain.Regular)
    (hp : s.Early i st p) {x t : List Int} :
    (s.prologueTimes i p).Relates x t ↔ x.length = st.dims ∧
      Solves (valuation x) (s.earlyDomain st i).cons ∧ t = s.earlyTime p (valuation x) := by
  have hdomain := regular_earlyDomain (i := i) s hregular
  have hdims := hp.dims_eq
  have hrows : ∀ row ∈ padded p.dims s.width (.constant p.dims 0 :: p.rows s.prologue.width),
      row.vars = p.dims := by
    apply vars_padded
    intro row hrow
    rcases List.mem_cons.mp hrow with rfl | hrow
    · simp
    · exact Placement.vars_rows row hrow
  have hvalue : (padded p.dims s.width (.constant p.dims 0 :: p.rows s.prologue.width)).map (·.eval x) =
      s.earlyTime p (valuation x) := by
    rw [← map_earlyRows hp]
    exact List.map_congr_left fun row _ => Affine.eval_eq_valueAt row x
  rw [prologueTimes, hp.domain, Relation.relates_intersectDomain Relation.regular_ofRows hdomain
    (by rw [dims_earlyDomain, ← hdims]; rfl), Relation.relates_ofRows hrows, hvalue,
    PointSet.includes_iff hdomain, PointSet.has_iff_solves hdomain (by rw [locals_earlyDomain, hlocals]),
    dims_earlyDomain, hdims]
  tauto

/-! ### The steady state -/

private def inPeriod (s : Schedule) (i : Nat) (p : Placement) : List Constraint :=
  let n := p.dims + s.width + 1
  let k := Affine.var n (n - 1)
  let index := ((Affine.var n (s.flow i)).sub (k.scale (s.period i))).plus (fit (-s.offset i))
  [.atLeast k, .atLeast index, .lt index (.constant n (s.period i)), .equal (.var n p.dims) (k.plus 1)]

/-- What follows the period in a time is the time within the period. -/
private def withinPeriod (s : Schedule) (p : Placement) : List Constraint :=
  let n := p.dims + s.width + 1
  let rows := (padded p.dims (s.width - 1) (p.rows s.steady.width)).map (·.remap n (List.range p.dims))
  (rows.zipIdx).map fun (row, j) => .equal (.var n (p.dims + 1 + j))
    (if j = 0 then row.sub ((Affine.var n (n - 1)).scale s.length) else row)

private theorem mem_withinPeriod_iff {c : Constraint} : c ∈ withinPeriod s p ↔
    ∃ row j, (padded p.dims (s.width - 1) (p.rows s.steady.width))[j]? = some row ∧
      c = .equal (.var (p.dims + s.width + 1) (p.dims + 1 + j))
        (if j = 0 then (row.remap (p.dims + s.width + 1) (List.range p.dims)).sub
          ((Affine.var (p.dims + s.width + 1) (p.dims + s.width)).scale s.length)
        else row.remap (p.dims + s.width + 1) (List.range p.dims)) := by
  simp only [withinPeriod, List.mem_map, Prod.exists, List.mem_zipIdx_iff_getElem?, List.getElem?_map,
    Option.map_eq_some_iff, Nat.add_sub_cancel]
  constructor
  · rintro ⟨_, j, ⟨row, hrow, rfl⟩, rfl⟩
    exact ⟨row, j, hrow, rfl⟩
  · rintro ⟨row, j, hrow, rfl⟩
    exact ⟨_, j, ⟨row, hrow, rfl⟩, rfl⟩

/-- The times of the steady state, before they are simplified. -/
private def unreduced (s : Schedule) (i : Nat) (st : Statement) (p : Placement) : Relation :=
  ⟨s.names.getD i "", "T", p.dims, s.width, 1,
    st.domain.cons.map (·.remap (p.dims + s.width + 1) (List.range p.dims)) ++ inPeriod s i p ++
      withinPeriod s p⟩

private theorem steadyTimes_eq (hst : m.statements[i]? = some st) :
    s.steadyTimes m i p = (unreduced s i st p).simplify := by
  simp only [steadyTimes, hst, Option.elim_some]
  rfl

private theorem regular_unreduced : (unreduced s i st p).Regular := by
  refine System.over_append.mpr ⟨System.over_append.mpr ⟨System.over_map_remap, ?_⟩, ?_⟩
  · intro c hc
    simp only [inPeriod, List.mem_cons, List.not_mem_nil, or_false] at hc
    rcases hc with rfl | rfl | rfl | rfl <;> simp [unreduced, Relation.vars, Relation.dims]
  · intro c hc
    obtain ⟨row, j, -, rfl⟩ := mem_withinPeriod_iff.mp hc
    split <;> simp [unreduced, Relation.vars, Relation.dims]

private theorem solves_inDomain (hregular : st.domain.Regular) (hvars : st.domain.vars = p.dims)
    {w x : Nat → Int} (hw : ∀ d, d < p.dims → w d = x d) :
    Solves w (st.domain.cons.map (·.remap (p.dims + s.width + 1) (List.range p.dims))) ↔
      Solves x st.domain.cons := by
  rw [System.solves_map_remap hregular (by simp [hvars]) (by simp; omega)]
  refine System.solves_congr hregular fun d hd => ?_
  rw [hvars] at hd
  rw [← hw d hd]
  simp [List.getD_eq_getElem?_getD, hd]

private theorem solves_inPeriod {flow : Nat} (hflow : s.flow i = flow) (hinside : flow < p.dims)
    (w : Nat → Int) : Solves w (inPeriod s i p) ↔
      0 ≤ w (p.dims + s.width) ∧ s.offset i + w (p.dims + s.width) * s.period i ≤ w flow ∧
        w flow < s.offset i + w (p.dims + s.width) * s.period i + s.period i ∧
        w p.dims = 1 + w (p.dims + s.width) := by
  have hk : (Affine.var (p.dims + s.width + 1) (p.dims + s.width)).valueAt w = w (p.dims + s.width) :=
    Affine.valueAt_var (by omega) w
  have hfirst : (Affine.var (p.dims + s.width + 1) p.dims).valueAt w = w p.dims :=
    Affine.valueAt_var (by omega) w
  have hindex : (Affine.var (p.dims + s.width + 1) flow).valueAt w = w flow :=
    Affine.valueAt_var (by omega) w
  have hsub := Affine.valueAt_sub (K := Int) (a := .var (p.dims + s.width + 1) flow)
    (b := (Affine.var (p.dims + s.width + 1) (p.dims + s.width)).scale (s.period i)) (by simp) w
  simp only [inPeriod, hflow, Nat.add_sub_cancel, System.solves_cons, Constraint.admits_atLeast,
    Arithmetic.fit_exact]
  rw [Constraint.admits_lt (by simp), Constraint.admits_equal (by simp), Affine.valueAt_plus,
    Affine.valueAt_plus, Affine.valueAt_constant, hsub, Affine.valueAt_scale, hk, hindex, hfirst,
    mul_comm]
  simp only [Int.cast_id, Int.cast_neg, Int.cast_one]
  constructor
  · rintro ⟨h, h', h'', h''', -⟩
    refine ⟨h, ?_, ?_, ?_⟩ <;> omega
  · rintro ⟨h, h', h'', h'''⟩
    refine ⟨h, ?_, ?_, ?_, System.solves_nil _⟩ <;> omega

private theorem lateTime_eq {flow : Nat} (hp : s.Late i st flow p) (x : Nat → Int) :
    s.lateTime p x = (1 + (x flow - s.offset i) / s.period i) ::
      ((padded p.dims (s.width - 1) (p.rows s.steady.width)).map (·.valueAt x)).modifyHead
        (· - (x flow - s.offset i) / s.period i * s.length) := by
  obtain ⟨hquotient, hremainder⟩ := hp.ediv_length x
  rw [lateTime, hquotient, hremainder, map_padded hp.carrier_lt hp.width steady_width_le, filled_cons]
  rfl

private theorem valuation_modifyHead (f : Int → Int) {l : List Int} {j : Nat} (hj : j < l.length) :
    valuation (l.modifyHead f) j = if j = 0 then f (valuation l j) else valuation l j := by
  cases l with
  | nil => simp at hj
  | cons a l => cases j <;> simp [valuation]

private theorem length_padded {width : Nat} (hwidth : 2 + p.inner.length ≤ width)
    (hle : width + 1 ≤ s.width) : (padded p.dims (s.width - 1) (p.rows width)).length = s.width - 1 := by
  rw [padded, List.length_append, List.length_replicate, Placement.length_rows hwidth]
  omega

private theorem admits_row {row : Affine} (hrow : row.vars = p.dims) {w x : Nat → Int}
    (hw : ∀ d, d < p.dims → w d = x d) {j : Nat} (hj : j < s.width - 1) :
    (Constraint.equal (.var (p.dims + s.width + 1) (p.dims + 1 + j))
      (if j = 0 then (row.remap (p.dims + s.width + 1) (List.range p.dims)).sub
        ((Affine.var (p.dims + s.width + 1) (p.dims + s.width)).scale s.length)
      else row.remap (p.dims + s.width + 1) (List.range p.dims))).Admits w ↔
    w (p.dims + 1 + j) =
      if j = 0 then row.valueAt x - w (p.dims + s.width) * s.length else row.valueAt x := by
  have hvalue : (row.remap (p.dims + s.width + 1) (List.range p.dims)).valueAt w = row.valueAt x := by
    rw [Affine.valueAt_remap _ _ _ (by simp [hrow]) (by simp; omega)]
    apply Affine.valueAt_congr_of_lt hrow.le
    intro d hd
    rw [← hw d hd]
    simp [List.getD_eq_getElem?_getD, hd]
  split
  · rw [Constraint.admits_equal (by simp), Affine.valueAt_var (by omega), Affine.valueAt_sub (by simp),
      Affine.valueAt_scale, Affine.valueAt_var (by omega), hvalue, Int.cast_id, mul_comm s.length]
  · rw [Constraint.admits_equal (by simp), Affine.valueAt_var (by omega), hvalue]

/-- A time within its period, coordinate by coordinate. -/
private theorem solves_withinPeriod (hwidth : 2 + p.inner.length ≤ s.steady.width) {w x : Nat → Int}
    (hw : ∀ d, d < p.dims → w d = x d) :
    Solves w (withinPeriod s p) ↔ ∀ j, j < s.width - 1 → w (p.dims + 1 + j) =
      valuation (((padded p.dims (s.width - 1) (p.rows s.steady.width)).map (·.valueAt x)).modifyHead
        (· - w (p.dims + s.width) * s.length)) j := by
  have hlength := length_padded hwidth steady_width_le
  have hvars : ∀ row ∈ padded p.dims (s.width - 1) (p.rows s.steady.width), row.vars = p.dims :=
    vars_padded Placement.vars_rows
  have hvalue : ∀ row j, (padded p.dims (s.width - 1) (p.rows s.steady.width))[j]? = some row →
      valuation (((padded p.dims (s.width - 1) (p.rows s.steady.width)).map (·.valueAt x)).modifyHead
        (· - w (p.dims + s.width) * s.length)) j =
      if j = 0 then row.valueAt x - w (p.dims + s.width) * s.length else row.valueAt x := by
    intro row j hrow
    obtain ⟨hj, hget⟩ := List.getElem?_eq_some_iff.mp hrow
    rw [valuation_modifyHead _ (by rwa [List.length_map])]
    simp [valuation, hrow]
  constructor
  · intro h j hj
    have hrow := List.getElem?_eq_getElem (hj.trans_eq hlength.symm)
    rw [hvalue _ j hrow, ← admits_row (hvars _ (List.mem_of_getElem? hrow)) hw hj]
    exact h _ (mem_withinPeriod_iff.mpr ⟨_, j, hrow, rfl⟩)
  · intro h c hc
    obtain ⟨row, j, hrow, rfl⟩ := mem_withinPeriod_iff.mp hc
    have hj := hlength ▸ (List.getElem?_eq_some_iff.mp hrow).1
    rw [admits_row (hvars row (List.mem_of_getElem? hrow)) hw hj, h j hj, hvalue row j hrow]

/-- Times of the steady state, coordinate by coordinate. The period that is quantified is the quotient
by which a point is moved. -/
private theorem links_unreduced (hlocals : st.domain.locals = 0) (hregular : st.domain.Regular)
    {flow : Nat} (hflow : s.flow i = flow) (hp : s.Late i st flow p) {x t : Nat → Int} :
    (unreduced s i st p).Links x t ↔ Solves x st.domain.cons ∧ s.offset i ≤ x flow ∧
      ∀ j, j < s.width → t j = valuation (s.lateTime p x) j := by
  have hinside : flow < p.dims := by rw [hp.dims_eq]; exact hp.inside
  have hvars : st.domain.vars = p.dims := by rw [PointSet.vars, hlocals, hp.dims_eq]; rfl
  obtain ⟨k, hk⟩ : ∃ k, k = (x flow - s.offset i) / s.period i := ⟨_, rfl⟩
  have hlow := Int.ediv_mul_le (x flow - s.offset i) hp.period.ne'
  have hhigh := Int.lt_ediv_add_one_mul_self (x flow - s.offset i) hp.period
  rw [← hk, add_mul, one_mul] at hhigh
  rw [← hk] at hlow
  rw [lateTime_eq hp, ← hk]
  constructor
  · rintro ⟨w, hwx, hwt, hw⟩
    obtain ⟨hw, hwithin⟩ := (System.solves_append w _ _).mp hw
    obtain ⟨hw, hin⟩ := (System.solves_append w _ _).mp hw
    rw [solves_inPeriod hflow hinside, hwx flow hinside] at hin
    rw [solves_withinPeriod hp.width hwx] at hwithin
    obtain ⟨hnonneg, hfrom, hto, hfirst⟩ := hin
    have hperiod : w (p.dims + s.width) = k := by
      rw [hk, eq_comm, Int.ediv_eq_iff_of_pos hp.period]
      constructor <;> linarith
    rw [hperiod] at hnonneg hfirst hfrom hwithin
    have hmul := mul_nonneg hnonneg hp.period.le
    refine ⟨(solves_inDomain hregular hvars hwx).mp hw, by omega, fun j hj => ?_⟩
    cases j with
    | zero => exact (hwt 0 hj).symm.trans hfirst
    | succ j =>
      rw [← hwt (j + 1) hj]
      have hrest := hwithin j (by omega)
      rwa [Nat.add_right_comm] at hrest
  · rintro ⟨hx, hfrom, ht⟩
    obtain ⟨w, hw⟩ : ∃ w, w = Relation.joined p.dims x fun o => if o < s.width then t o else k := ⟨_, rfl⟩
    have hwx : ∀ d, d < p.dims → w d = x d := by
      intro d hd
      rw [hw, Relation.joined_of_lt hd]
    have hwt : ∀ o, o < s.width → w (p.dims + o) = t o := by
      intro o ho
      rw [hw, Relation.joined_add, if_pos ho]
    have hperiod : w (p.dims + s.width) = k := by
      rw [hw, Relation.joined_add, if_neg (lt_irrefl _)]
    have hwidth : 0 < s.width := by rw [width]; omega
    refine ⟨w, hwx, hwt, (System.solves_append w _ _).mpr ⟨(System.solves_append w _ _).mpr
      ⟨(solves_inDomain hregular hvars hwx).mpr hx, ?_⟩, ?_⟩⟩
    · rw [solves_inPeriod hflow hinside, hperiod, hwx flow hinside]
      refine ⟨?_, by omega, by omega, (hwt 0 hwidth).trans (ht 0 hwidth)⟩
      rw [hk]
      exact Int.ediv_nonneg (by omega) hp.period.le
    · rw [solves_withinPeriod hp.width hwx, hperiod]
      intro j hj
      rw [Nat.add_right_comm, Nat.add_assoc, hwt (j + 1) (by omega)]
      exact ht (j + 1) (by omega)

theorem relates_steadyTimes (hst : m.statements[i]? = some st) (hlocals : st.domain.locals = 0)
    (hregular : st.domain.Regular) {flow : Nat} (hflow : s.flow i = flow) (hp : s.Late i st flow p)
    {x t : List Int} : (s.steadyTimes m i p).Relates x t ↔ x.length = st.dims ∧
      Solves (valuation x) st.domain.cons ∧ s.offset i ≤ valuation x flow ∧
        t = s.lateTime p (valuation x) := by
  have hwidth : s.steady.width + 1 ≤ s.width := steady_width_le
  have hlength : (s.lateTime p (valuation x)).length = s.width := by
    rw [lateTime_eq hp, List.length_cons, List.length_modifyHead, List.length_map,
      length_padded hp.width hwidth]
    omega
  rw [steadyTimes_eq hst, Relation.relates_simplify regular_unreduced,
    Relation.relates_iff regular_unreduced, links_unreduced hlocals hregular hflow hp]
  constructor
  · rintro ⟨hx, ht, hdomain, hfrom, hvalue⟩
    refine ⟨hx.trans hp.dims_eq, hdomain, hfrom, ?_⟩
    apply ext_of_valuation (ht.trans hlength.symm)
    intro j hj
    exact hvalue j (hlength ▸ hj)
  · rintro ⟨hx, hdomain, hfrom, rfl⟩
    exact ⟨hx.trans hp.dims_eq.symm, hlength, hdomain, hfrom, fun _ _ => rfl⟩

/-! ### Distinct instances -/

/-- The step of a point gives its carrier, and the rest of its time all other coordinates. -/
private theorem eq_of_timeAt (hscale : 0 < p.scale) {x y : List Int} (hx : x.length = p.dims)
    (hy : y.length = p.dims) (htime : p.timeAt (valuation x) = p.timeAt (valuation y)) : x = y := by
  rw [Placement.timeAt, Placement.timeAt, List.cons.injEq, List.cons.injEq] at htime
  obtain ⟨htheta, -, hinner⟩ := htime
  apply ext_of_valuation (hx.trans hy.symm)
  intro d hd
  by_cases hcarrier : p.carrier = some d
  · rw [Placement.thetaAt, Placement.thetaAt, hcarrier] at htheta
    exact mul_left_cancel₀ hscale.ne' (add_right_cancel htheta)
  · refine List.map_inj_left.mp hinner d (List.mem_filter.mpr ⟨List.mem_range.mpr (hy ▸ hd), ?_⟩)
    simpa using hcarrier

private theorem order_eq_of_timeAt {q : Placement} {x y : Nat → Int} (htime : p.timeAt x = q.timeAt y) :
    p.order = q.order := by
  rw [Placement.timeAt, Placement.timeAt, List.cons.injEq, List.cons.injEq] at htime
  exact Int.ofNat.inj htime.2.1

private theorem eq_of_order_iff {α : Type} [LinearOrder α] {a b : List Int} {u v : α}
    (hlt : a < b ↔ u < v) (hgt : b < a ↔ v < u) (heq : a = b) : u = v := by
  rcases lt_trichotomy u v with h | h | h
  · exact absurd (hlt.mpr h) (heq ▸ lt_irrefl b)
  · exact h
  · exact absurd (hgt.mpr h) (heq ▸ lt_irrefl b)

/-- No two instances share a time. -/
theorem eq_of_occurs (hs : s.Consistent m) {j : Nat} {x y t u : List Int} (hx : s.Occurs m i x t)
    (hy : s.Occurs m j y u) (heq : t = u) : i = j ∧ x = y := by
  cases hx with
  | @early st p hst hp hearly hlength hx =>
    cases hy with
    | @early st' q hst' hq hearly' hlength' hy =>
      have htime := eq_of_order_iff (earlyTime_lt_earlyTime_iff hs hp hq _ _)
        (earlyTime_lt_earlyTime_iff hs hq hp _ _) heq
      obtain rfl := hs.earlyOrder i j p q hp hq (order_eq_of_timeAt htime)
      obtain rfl := Option.some.inj (hp.symm.trans hq)
      refine ⟨rfl, eq_of_timeAt hearly.scale ?_ ?_ htime⟩
      · rw [hlength, hearly.dims_eq]
      · rw [hlength', hearly'.dims_eq]
    | late hst' hq hlate hlength' hy hfrom => exact absurd heq (earlyTime_lt_lateTime hlate _ hfrom).ne
  | @late st p flow hst hp hlate hlength hx hfrom =>
    cases hy with
    | early hst' hq hearly hlength' hy => exact absurd heq (earlyTime_lt_lateTime hlate _ hfrom).ne'
    | @late st' q flow' hst' hq hlate' hlength' hy hfrom' =>
      have htime := eq_of_order_iff (lateTime_lt_lateTime_iff hs hp hq _ _)
        (lateTime_lt_lateTime_iff hs hq hp _ _) heq
      obtain rfl := hs.lateOrder i j p q hp hq (order_eq_of_timeAt htime)
      obtain rfl := Option.some.inj (hp.symm.trans hq)
      refine ⟨rfl, eq_of_timeAt hlate.scale ?_ ?_ htime⟩
      · rw [hlength, hlate.dims_eq]
      · rw [hlength', hlate'.dims_eq]

/-! ### Both forms of the combined time -/

/-- The relations that a statement contributes to the combined time relate a point to what looking up its
time finds. -/
theorem relates_iff_occurs (hs : s.Consistent m) (hm : m.Proper) {x t : List Int} :
    (∃ r ∈ s.contributions m i, r.Relates x t) ↔ s.Occurs m i x t := by
  simp only [mem_contributions_iff]
  constructor
  · rintro ⟨_, ⟨p, hp, rfl⟩ | ⟨p, hp, rfl⟩, hrelates⟩
    · obtain ⟨st, hst, hearly⟩ := hs.early i p hp
      obtain ⟨hlocals, hregular, -⟩ := hm st (List.mem_of_getElem? hst)
      obtain ⟨hlength, hx, rfl⟩ := (relates_prologueTimes hlocals hregular hearly).mp hrelates
      exact .early hst hp hearly hlength hx
    · obtain ⟨st, flow, hst, hlate⟩ := hs.late i p hp
      obtain ⟨hlocals, hregular, -⟩ := hm st (List.mem_of_getElem? hst)
      have hflow : s.flow i = flow := by rw [hs.flows i st hst, hlate.flows, Option.getD_some]
      obtain ⟨hlength, hx, hfrom, rfl⟩ :=
        (relates_steadyTimes hst hlocals hregular hflow hlate).mp hrelates
      exact .late hst hp hlate hlength hx hfrom
  · intro h
    cases h with
    | early hst hp hearly hlength hx =>
      obtain ⟨hlocals, hregular, -⟩ := hm _ (List.mem_of_getElem? hst)
      exact ⟨_, .inl ⟨_, hp, rfl⟩, (relates_prologueTimes hlocals hregular hearly).mpr ⟨hlength, hx, rfl⟩⟩
    | late hst hp hlate hlength hx hfrom =>
      obtain ⟨hlocals, hregular, -⟩ := hm _ (List.mem_of_getElem? hst)
      have hflow := hs.flows i _ hst
      rw [hlate.flows, Option.getD_some] at hflow
      exact ⟨_, .inr ⟨_, hp, rfl⟩,
        (relates_steadyTimes hst hlocals hregular hflow hlate).mpr ⟨hlength, hx, hfrom, rfl⟩⟩

/-- The domain of a statement consists of its points that are executed. -/
theorem includes_iff_exists_occurs (hs : s.Consistent m) (hm : m.Proper)
    (hst : m.statements[i]? = some st) {x : List Int} :
    st.domain.Includes x ↔ ∃ t, s.Occurs m i x t := by
  obtain ⟨hlocals, hregular, -⟩ := hm st (List.mem_of_getElem? hst)
  rw [PointSet.includes_iff hregular, PointSet.has_iff_solves hregular hlocals]
  constructor
  · rintro ⟨hlength, hx⟩
    exact exists_occurs hs hst hlength hx
  · rintro ⟨t, hx⟩
    cases hx with
    | early hst' hp hearly hlength hx =>
      obtain rfl := Option.some.inj (hst.symm.trans hst')
      refine ⟨hlength, ?_⟩
      unfold earlyDomain at hx
      split at hx
      · exact (PointSet.solves_constrain.mp hx).1
      · exact hx
    | late hst' hp hlate hlength hx hfrom =>
      obtain rfl := Option.some.inj (hst.symm.trans hst')
      exact ⟨hlength, hx⟩

/-- In a schedule that was synthesized for a built model, the relations of the combined time and the times
that are looked up are the same. They are defined on the domains, and place every instance once. -/
theorem combined_iff_time {program : Program} {options : ScheduleOptions}
    (hm : (Model.build program).execute.1 = .ok m) (hs : (synthesize m options).execute.1 = .ok s) :
    (∀ r, r ∈ (s.combined m).relations ↔ ∃ i, r ∈ s.contributions m i) ∧
    (∀ i x t, (∃ r ∈ s.contributions m i, r.Relates x t) ↔ s.time? i x = .ok (some t)) ∧
    (∀ i st x, m.statements[i]? = some st → x.length = st.dims →
      (st.domain.Includes x → ∃ t, s.time? i x = .ok (some t)) ∧
      (¬ st.domain.Includes x → s.time? i x = .ok none)) ∧
    ∀ i j x y t, s.time? i x = .ok (some t) → s.time? j y = .ok (some t) → i = j ∧ x = y := by
  have hproper := (Model.built_of_build hm).proper
  have hconsistent := consistent_of_synthesize hproper hs
  have htime : ∀ {i x t}, s.time? i x = .ok (some t) ↔ s.Occurs m i x t :=
    time?_eq_some_iff hconsistent hproper
  refine ⟨fun r => mem_combined_iff, fun i x t => ?_, fun i st x hst hlength => ⟨fun hx => ?_, fun hx => ?_⟩,
    fun i j x y t hx hy => ?_⟩
  · rw [htime, relates_iff_occurs hconsistent hproper]
  · simp only [htime]
    exact (includes_iff_exists_occurs hconsistent hproper hst).mp hx
  · obtain ⟨time, h⟩ := exists_time? hconsistent hproper hst hlength
    cases time with
    | none => exact h
    | some t => exact absurd ((includes_iff_exists_occurs hconsistent hproper hst).mpr ⟨t, htime.mp h⟩) hx
  · exact eq_of_occurs hconsistent (htime.mp hx) (htime.mp hy) rfl

/-- In the stream of ones, the second instance of the recurrence has one time, which a relation gives it. -/
theorem combined_iff_time_ones : ∃ m s, (Model.build .ones).execute.1 = .ok m ∧
    (synthesize m ⟨true, true⟩).execute.1 = .ok s ∧
    ∃ t, s.time? 1 [2] = .ok (some t) ∧ (∃ r ∈ s.contributions m 1, r.Relates [2] t) ∧
      s.time? 1 [1] ≠ .ok (some t) := by
  have hrun : (Outcome.passes (Model.build .ones).execute.1 fun m =>
      Outcome.passes (synthesize m ⟨true, true⟩).execute.1 fun s =>
        Outcome.passes (s.time? 1 [2]) (·.isSome)) = true := by
    decide +kernel
  obtain ⟨m, hm, hrun⟩ := Outcome.exists_of_passes hrun
  obtain ⟨s, hs, hrun⟩ := Outcome.exists_of_passes hrun
  obtain ⟨time, htime, hrun⟩ := Outcome.exists_of_passes hrun
  obtain ⟨t, rfl⟩ := Option.isSome_iff_exists.mp hrun
  obtain ⟨-, hrelates, -, hdistinct⟩ := combined_iff_time hm hs
  refine ⟨m, s, hm, hs, t, htime, (hrelates 1 [2] t).mpr htime, fun hother => ?_⟩
  simpa using (hdistinct 1 1 [1] [2] t hother htime).2

end Schedule

end StreamLoom
