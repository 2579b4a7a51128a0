import StreamLoom.Proofs.Schedule.Consistency

/-!
# The combined time

The time of a point in the steady state is found by moving the point into the first period. The step
that it has there is what remains of its own step after whole periods, and the number of periods is the
quotient. So the combined time does not have to be thought of in terms of periods at all: it orders the
points of the steady state by their steps, as if these were never cut.
-/

namespace StreamLoom

attribute [local instance] Arithmetic.exact

open StreamLoom.System (Solves Over)

namespace Placement

variable {p : Placement}

theorem valueAt_leading (hcarrier : ∀ c, p.carrier = some c → c < p.dims) (x : Nat → Int) :
    p.leading.valueAt x = p.thetaAt x := by
  rw [leading, thetaAt]
  cases hc : p.carrier with
  | none => simp [carriedAt]
  | some c => simp [carriedAt, Affine.valueAt_var (hcarrier c hc)]

theorem vars_leading : p.leading.vars = p.dims := by
  unfold leading
  split <;> simp

theorem lt_of_mem_inner {d : Nat} (hd : d ∈ p.inner) : d < p.dims :=
  List.mem_range.mp (List.mem_of_mem_filter hd)

private theorem rows_eq {width : Nat} (hwidth : 2 + p.inner.length ≤ width) :
    p.rows width = p.leading :: .constant p.dims p.order :: (p.inner.map (Affine.var p.dims) ++
      List.replicate (width - 2 - p.inner.length) (Affine.constant p.dims 0)) := by
  simp only [rows, List.length_map]
  rw [List.take_of_length_le]
  simp
  omega

theorem vars_rows {width : Nat} : ∀ row ∈ p.rows width, row.vars = p.dims := by
  intro row hrow
  simp only [rows] at hrow
  rcases List.mem_cons.mp hrow with rfl | hrow
  · exact vars_leading
  rcases List.mem_cons.mp hrow with rfl | hrow
  · simp
  rcases List.mem_append.mp (List.mem_of_mem_take hrow) with hrow | hrow
  · obtain ⟨d, -, rfl⟩ := List.mem_map.mp hrow
    simp
  · rw [List.eq_of_mem_replicate hrow]
    simp

theorem length_rows {width : Nat} (hwidth : 2 + p.inner.length ≤ width) :
    (p.rows width).length = width := by
  simp only [rows, List.length_cons, List.length_take, List.length_append, List.length_map,
    List.length_replicate]
  omega

theorem map_rows (hcarrier : ∀ c, p.carrier = some c → c < p.dims) {width : Nat}
    (hwidth : 2 + p.inner.length ≤ width) (x : Nat → Int) :
    (p.rows width).map (·.valueAt x) =
      p.timeAt x ++ List.replicate (width - 2 - p.inner.length) 0 := by
  have hinner : (p.inner.map (Affine.var p.dims)).map (fun row => row.valueAt x) = p.inner.map x := by
    rw [List.map_map]
    exact List.map_congr_left fun d hd => Affine.valueAt_var (lt_of_mem_inner hd) _
  rw [rows_eq hwidth, List.map_cons, List.map_cons, List.map_append, hinner, valueAt_leading hcarrier]
  simp [timeAt]

theorem mapM_rows (hcarrier : ∀ c, p.carrier = some c → c < p.dims) {width : Nat}
    (hwidth : 2 + p.inner.length ≤ width) {x : List Int} (hx : x.length = p.dims) :
    (p.rows width).mapM (·.eval? x) =
      .ok (p.timeAt (valuation x) ++ List.replicate (width - 2 - p.inner.length) 0) := by
  rw [← map_rows hcarrier hwidth]
  apply Outcome.mapM_eq_ok
  rw [List.forall₂_map_right_iff, List.forall₂_same]
  intro row hrow
  simp [Affine.eval?, hx, vars_rows row hrow, Affine.eval_eq_valueAt]

end Placement

namespace Schedule

variable {s : Schedule} {m : Model} {i : Nat}

theorem mem_present_iff {phase : Phase} {i : Nat} {p : Placement} :
    (i, p) ∈ present phase ↔ phase.placement? i = some p := by
  simp only [present, Phase.placement?, List.mem_filterMap, Prod.exists, Option.map_eq_some_iff,
    Prod.mk.injEq]
  constructor
  · rintro ⟨_, _, hmem, q, rfl, rfl, rfl⟩
    rw [List.mem_zipIdx_iff_getElem?] at hmem
    rw [hmem, Option.join_some]
  · intro h
    refine ⟨some p, i, ?_, p, rfl, rfl, rfl⟩
    rw [List.mem_zipIdx_iff_getElem?]
    exact Option.join_eq_some_iff.mp h

/-! ### Times of points -/

def filled (s : Schedule) (time : List Int) : List Int :=
  time ++ List.replicate (s.width - time.length) 0

def earlyTime (s : Schedule) (p : Placement) (x : Nat → Int) : List Int :=
  s.filled (0 :: p.timeAt x)

def lateTime (s : Schedule) (p : Placement) (x : Nat → Int) : List Int :=
  s.filled ((1 + p.thetaAt x / s.length) :: (p.thetaAt x % s.length) :: (p.order : Int) ::
    p.inner.map x)

/-- A point of a statement is executed at a time of the prologue or of the steady state. -/
inductive Occurs (s : Schedule) (m : Model) (i : Nat) (x : List Int) : List Int → Prop
  | early {st : Statement} {p : Placement} (hst : m.statements[i]? = some st)
      (hp : s.prologue.placement? i = some p) (hearly : s.Early i st p) (hlength : x.length = st.dims)
      (hx : Solves (valuation x) (s.earlyDomain st i).cons) :
      Occurs s m i x (s.earlyTime p (valuation x))
  | late {st : Statement} {p : Placement} {flow : Nat} (hst : m.statements[i]? = some st)
      (hp : s.steady.placement? i = some p) (hlate : s.Late i st flow p) (hlength : x.length = st.dims)
      (hx : Solves (valuation x) st.domain.cons) (hfrom : s.offset i ≤ valuation x flow) :
      Occurs s m i x (s.lateTime p (valuation x))

private theorem timed_eq {p : Placement} {width : Nat} (hwidth : 2 + p.inner.length ≤ width)
    (hle : width + 1 ≤ s.width) (first : Int) (x : Nat → Int) :
    s.timed first (p.timeAt x ++ List.replicate (width - 2 - p.inner.length) 0) =
      s.filled (first :: p.timeAt x) := by
  simp only [timed, filled, List.cons_append, List.append_assoc, List.replicate_append_replicate]
  congr 3
  simp only [Placement.timeAt, List.length_append, List.length_cons, List.length_map,
    List.length_replicate]
  omega

theorem prologue_width_le : s.prologue.width + 1 ≤ s.width := by
  simp only [width]
  omega

theorem steady_width_le : s.steady.width + 1 ≤ s.width := by
  simp only [width]
  omega

theorem Early.dims_eq {st : Statement} {p : Placement} (hp : s.Early i st p) : p.dims = st.dims := by
  rw [Placement.dims, hp.domain, dims_earlyDomain]

theorem Early.carrier_lt {st : Statement} {p : Placement} (hp : s.Early i st p) :
    ∀ c, p.carrier = some c → c < p.dims := by
  rw [hp.dims_eq]
  exact hp.carrier

namespace Late

variable {st : Statement} {p : Placement} {flow : Nat}

theorem dims_eq (hp : s.Late i st flow p) : p.dims = st.dims := by
  rw [Placement.dims, hp.domain]
  rfl

theorem thetaAt_eq (hp : s.Late i st flow p) (x : Nat → Int) :
    p.thetaAt x = p.scale * x flow + p.delay := by
  simp [Placement.thetaAt, carriedAt, hp.carrier]

theorem carrier_lt (hp : s.Late i st flow p) : ∀ c, p.carrier = some c → c < p.dims := by
  intro c hc
  rw [hp.carrier] at hc
  obtain rfl := Option.some.inj hc
  rw [hp.dims_eq]
  exact hp.inside

theorem length_pos (hp : s.Late i st flow p) : 0 < s.length := by
  rw [← hp.length]
  exact mul_pos hp.scale hp.period

/-- A point belongs to the steady state when its step does. -/
theorem thetaAt_nonneg_iff (hp : s.Late i st flow p) (x : Nat → Int) :
    0 ≤ p.thetaAt x ↔ s.offset i ≤ x flow := by
  rw [hp.thetaAt_eq]
  constructor
  · intro hx
    by_contra hlt
    have hle : x flow ≤ s.offset i - 1 := by omega
    have hmul := mul_le_mul_of_nonneg_left hle hp.scale.le
    have hlast := hp.last
    omega
  · intro hx
    have hmul := mul_le_mul_of_nonneg_left hx hp.scale.le
    have hfirst := hp.first
    omega

/-- Whole periods move the steps of a point by whole lengths. -/
theorem thetaAt_update (hp : s.Late i st flow p) (x : Nat → Int) (k : Int) :
    p.thetaAt (Function.update x flow (x flow - k * s.period i)) = p.thetaAt x - k * s.length := by
  rw [hp.thetaAt_eq, hp.thetaAt_eq, Function.update_self, ← hp.length]
  ring

theorem map_inner_update (hp : s.Late i st flow p) (x : Nat → Int) (t : Int) :
    p.inner.map (Function.update x flow t) = p.inner.map x := by
  refine List.map_congr_left fun d hd => ?_
  have hne : d ≠ flow := by
    rintro rfl
    simp [Placement.inner, Placement.innerOf, hp.carrier] at hd
  rw [Function.update_of_ne hne]

/-- The periods before a point are counted by its flow index as they are by its step. -/
theorem ediv_length (hp : s.Late i st flow p) (x : Nat → Int) :
    p.thetaAt x / s.length = (x flow - s.offset i) / s.period i ∧
      p.thetaAt x % s.length = p.thetaAt x - (x flow - s.offset i) / s.period i * s.length := by
  have hlength := hp.length_pos
  have hperiod := hp.period
  obtain ⟨k, hk⟩ : ∃ k, k = (x flow - s.offset i) / s.period i := ⟨_, rfl⟩
  have hge := Int.ediv_mul_le (x flow - s.offset i) hperiod.ne'
  have hlt := Int.lt_ediv_add_one_mul_self (x flow - s.offset i) hperiod
  rw [← hk] at hge hlt ⊢
  rw [add_mul, one_mul] at hlt
  have hfirst := (hp.thetaAt_nonneg_iff (Function.update x flow (x flow - k * s.period i))).mpr (by
    rw [Function.update_self]
    omega)
  have hlast : p.thetaAt x - (k + 1) * s.length < 0 := by
    rw [← hp.thetaAt_update x (k + 1), ← not_le, hp.thetaAt_nonneg_iff, Function.update_self, add_mul]
    omega
  rw [hp.thetaAt_update] at hfirst
  have hquotient : p.thetaAt x / s.length = k := by
    rw [Int.ediv_eq_iff_of_pos hlength]
    constructor <;> linarith
  refine ⟨hquotient, ?_⟩
  rw [Int.emod_def, hquotient, mul_comm]

/-- A point of the steady state, moved into the first period. -/
theorem solves_moved (hp : s.Late i st flow p) {x : Nat → Int} (hfrom : s.offset i ≤ x flow) :
    Solves (Function.update x flow (x flow - (x flow - s.offset i) / s.period i * s.period i))
        p.domain.cons ↔ Solves x st.domain.cons := by
  have hge := Int.ediv_mul_le (x flow - s.offset i) hp.period.ne'
  have hlt := Int.lt_ediv_add_one_mul_self (x flow - s.offset i) hp.period
  rw [add_mul, one_mul] at hlt
  rw [hp.domain, solves_firstPeriod hp.inside, Function.update_self]
  constructor
  · rintro ⟨hmoved, -⟩
    have hback := hp.periodic _ hmoved (x flow) hfrom
    rwa [Function.update_idem, Function.update_eq_self] at hback
  · intro hx
    exact ⟨hp.periodic x hx _ (by omega), by omega, by omega⟩

end Late

/-! ### The combined time -/

private theorem prologueTime?_eq_ok_iff (hm : m.Proper) {st : Statement} {p : Placement}
    (hst : m.statements[i]? = some st) (hp : s.Early i st p) {x : List Int} {t : Option (List Int)} :
    s.prologueTime? p x = .ok t ↔ x.length = st.dims ∧
      (Solves (valuation x) (s.earlyDomain st i).cons ∧ t = some (s.earlyTime p (valuation x)) ∨
        ¬ Solves (valuation x) (s.earlyDomain st i).cons ∧ t = none) := by
  obtain ⟨hlocals, hregular, -⟩ := hm st (List.mem_of_getElem? hst)
  have hdims := hp.dims_eq
  have hdomain : p.domain.Regular := by
    rw [hp.domain]
    exact regular_earlyDomain s hregular
  by_cases hlength : x.length = st.dims
  · have hcontains := (PointSet.contains?_eq_ok_iff hdomain).mpr ⟨hlength.trans hdims.symm, rfl⟩
    have hiff := PointSet.contains_iff hdomain (by rw [hp.domain, locals_earlyDomain, hlocals])
      (hlength.trans hdims.symm)
    have hrows := p.mapM_rows hp.carrier_lt hp.width (hlength.trans hdims.symm)
    rw [hp.domain] at hiff hcontains
    rw [prologueTime?, hp.domain, hcontains, hrows]
    cases hin : (s.earlyDomain st i).contains x with
    | true =>
      rw [hin] at hiff
      simp only [bind, Except.bind, pure, Except.pure, if_true, timed_eq hp.width prologue_width_le]
      simp [hlength, hiff.mp rfl, earlyTime, eq_comm]
    | false =>
      rw [hin] at hiff
      simp only [bind, Except.bind, pure, Except.pure]
      have hnot : ¬ Solves (valuation x) (s.earlyDomain st i).cons := fun h => by
        simpa using hiff.mpr h
      simp [hlength, hnot, eq_comm]
  · constructor
    · intro h
      obtain ⟨b, hb, -⟩ := Outcome.bind_eq_ok h
      obtain ⟨hb, -⟩ := (PointSet.contains?_eq_ok_iff hdomain).mp hb
      exact absurd (hb.trans hdims) hlength
    · rintro ⟨h, -⟩
      exact absurd h hlength

theorem elementAt_eq {x : List Int} {d : Nat} (hd : d < x.length) :
    elementAt x (d : Int) = .ok (valuation x d) := by
  have hneg : ¬ ((d : Int) < 0) := by omega
  simp [elementAt, hneg, List.getElem?_eq_getElem hd, valuation]

private theorem steadyTime?_eq {st : Statement} {p : Placement} {flow : Nat}
    (hflow : s.flow i = flow) (hp : s.Late i st flow p) {x : List Int} (hx : x.length = st.dims) :
    s.steadyTime? i p x =
      if s.offset i ≤ valuation x flow then do
        let moved := x.set flow (valuation x flow -
          (valuation x flow - s.offset i) / s.period i * s.period i)
        if ← p.domain.contains? moved then
          return some (s.lateTime p (valuation x))
        else return none
      else .ok none := by
  have hperiod := hp.period
  have hinside : flow < x.length := by rw [hx]; exact hp.inside
  have hfloor : Arithmetic.floorDiv? (valuation x flow - s.offset i) (s.period i) =
      .ok ((valuation x flow - s.offset i) / s.period i) := by
    have hne : (s.period i != 0) = true := by simpa using hperiod.ne'
    simp [Arithmetic.floorDiv?, Arithmetic.nonzero, hne, Arithmetic.floorDiv,
      Int.fdiv_eq_ediv_of_nonneg _ hperiod.le, bind, Except.bind, pure, Except.pure]
  rw [steadyTime?, hflow, elementAt_eq hinside]
  simp only [Arithmetic.fit_exact, bind, Except.bind, hfloor]
  have hsign : (valuation x flow - s.offset i) / s.period i < 0 ↔ ¬ s.offset i ≤ valuation x flow := by
    rw [Int.ediv_lt_iff_lt_mul hperiod]
    omega
  by_cases hfrom : s.offset i ≤ valuation x flow
  · rw [if_neg (by rw [hsign]; exact not_not_intro hfrom), if_pos hfrom]
    congr 1
    funext b
    cases b with
    | false => rfl
    | true =>
      have hrows := p.mapM_rows (x := x.set flow (valuation x flow -
          (valuation x flow - s.offset i) / s.period i * s.period i))
        hp.carrier_lt hp.width (by rw [List.length_set, hx, hp.dims_eq])
      obtain ⟨hquotient, hremainder⟩ := hp.ediv_length (valuation x)
      simp only [if_true, hrows, pure, Except.pure, timed_eq hp.width steady_width_le, lateTime]
      rw [valuation_set hinside, Placement.timeAt, hp.thetaAt_update, hp.map_inner_update, hquotient,
        hremainder]
  · rw [if_pos (hsign.mpr hfrom), if_neg hfrom]
    rfl

private theorem length_of_steadyTime? {st : Statement} {p : Placement} {flow : Nat}
    (hdomain : p.domain.Regular) (hp : s.Late i st flow p) {x t : List Int}
    (h : s.steadyTime? i p x = .ok (some t)) : x.length = st.dims := by
  obtain ⟨index, -, h⟩ := Outcome.bind_eq_ok h
  obtain ⟨k, -, h⟩ := Outcome.bind_eq_ok h
  split at h
  · cases h
  obtain ⟨b, hb, -⟩ := Outcome.bind_eq_ok h
  obtain ⟨hlength, -⟩ := (PointSet.contains?_eq_ok_iff hdomain).mp hb
  rw [List.length_set] at hlength
  exact hlength.trans hp.dims_eq

private theorem steadyTime?_eq_some_iff (hm : m.Proper) {st : Statement} {p : Placement} {flow : Nat}
    (hst : m.statements[i]? = some st) (hflow : s.flow i = flow) (hp : s.Late i st flow p)
    {x t : List Int} :
    s.steadyTime? i p x = .ok (some t) ↔ x.length = st.dims ∧ Solves (valuation x) st.domain.cons ∧
      s.offset i ≤ valuation x flow ∧ t = s.lateTime p (valuation x) := by
  obtain ⟨hlocals, hregular, -⟩ := hm st (List.mem_of_getElem? hst)
  have hdomain : p.domain.Regular := by
    rw [hp.domain]
    exact regular_firstPeriod hregular _ _ _
  by_cases hlength : x.length = st.dims
  · rw [steadyTime?_eq hflow hp hlength]
    by_cases hfrom : s.offset i ≤ valuation x flow
    · rw [if_pos hfrom]
      have hmoved := hp.solves_moved hfrom
      rw [← valuation_set (by rw [hlength]; exact hp.inside)] at hmoved
      have hlength' : ∀ index, (x.set flow index).length = p.domain.dims := by
        intro index
        rw [List.length_set, hlength, ← hp.dims_eq]
        rfl
      specialize hlength' (valuation x flow - (valuation x flow - s.offset i) / s.period i * s.period i)
      generalize x.set flow _ = moved at hmoved hlength' ⊢
      have hcontains := (PointSet.contains?_eq_ok_iff hdomain).mpr ⟨hlength', rfl⟩
      have hiff := PointSet.contains_iff hdomain (by rw [hp.domain]; exact hlocals) hlength'
      simp only [hcontains, bind, Except.bind]
      cases hin : p.domain.contains moved with
      | true =>
        rw [hin] at hiff
        simp [hlength, hfrom, hmoved.mp (hiff.mp rfl), pure, Except.pure, eq_comm]
      | false =>
        rw [hin] at hiff
        have hnot : ¬ Solves (valuation x) st.domain.cons := fun h => by
          simpa using hiff.mpr (hmoved.mpr h)
        simp [hnot, pure, Except.pure]
    · rw [if_neg hfrom]
      simp [hfrom]
  · refine iff_of_false (fun h => hlength (length_of_steadyTime? hdomain hp h)) ?_
    rintro ⟨h, -⟩
    exact hlength h

theorem Late.not_early {st : Statement} {p : Placement} {flow : Nat} (hp : s.Late i st flow p)
    (hflow : s.flow i = flow) (hsteady : s.isSteady i = true) {x : Nat → Int}
    (hfrom : s.offset i ≤ x flow) : ¬ Solves x (s.earlyDomain st i).cons := by
  intro hx
  rw [earlyDomain, if_pos hsteady, hflow, solves_before hp.inside] at hx
  omega

theorem isSteady_of_placement {p : Placement} (hp : s.steady.placement? i = some p) :
    s.isSteady i = true := by
  rw [isSteady, Phase.isPresent, hp]
  rfl

private theorem time?_eq (x : List Int) : s.time? i x =
    ((s.prologue.placement? i).elim (pure none) (s.prologueTime? · x)) >>= fun early =>
      early.elim ((s.steady.placement? i).elim (pure none) (s.steadyTime? i · x)) (pure ∘ some) := by
  rw [time?]
  cases s.prologue.placement? i <;> cases s.steady.placement? i <;>
    · dsimp only [Option.elim]
      congr 1
      funext early
      cases early <;> rfl

/-- The combined time is defined for the points that are executed, in one of the phases. -/
theorem time?_eq_some_iff (hs : s.Consistent m) (hm : m.Proper) {x t : List Int} :
    s.time? i x = .ok (some t) ↔ s.Occurs m i x t := by
  rw [time?_eq]
  constructor
  · intro h
    obtain ⟨early, hearly, h⟩ := Outcome.bind_eq_ok h
    have hlate : early = none → s.Occurs m i x t := by
      rintro rfl
      cases hp : s.steady.placement? i with
      | none =>
        rw [hp] at h
        cases h
      | some p =>
        rw [hp] at h
        obtain ⟨st, flow, hst, hlate⟩ := hs.late i p hp
        have hflow : s.flow i = flow := by rw [hs.flows i st hst, hlate.flows, Option.getD_some]
        obtain ⟨hlength, hx, hfrom, rfl⟩ := (steadyTime?_eq_some_iff hm hst hflow hlate).mp h
        exact .late hst hp hlate hlength hx hfrom
    cases hp : s.prologue.placement? i with
    | none =>
      rw [hp] at hearly
      cases hearly
      exact hlate rfl
    | some p =>
      rw [hp] at hearly
      obtain ⟨st, hst, hplaced⟩ := hs.early i p hp
      obtain ⟨hlength, ⟨hx, rfl⟩ | ⟨-, rfl⟩⟩ := (prologueTime?_eq_ok_iff hm hst hplaced).mp hearly
      · cases h
        exact .early hst hp hplaced hlength hx
      · exact hlate rfl
  · rintro (⟨hst, hp, hearly, hlength, hx⟩ | ⟨hst, hp, hlate, hlength, hx, hfrom⟩)
    · rename_i st p
      have htime := (prologueTime?_eq_ok_iff hm hst hearly).mpr ⟨hlength, .inl ⟨hx, rfl⟩⟩
      rw [hp, Option.elim_some, htime]
      rfl
    · rename_i st p flow
      have hflow : s.flow i = flow := by rw [hs.flows i st hst, hlate.flows, Option.getD_some]
      have hnot := hlate.not_early hflow (isSteady_of_placement hp) hfrom
      have htime := (steadyTime?_eq_some_iff hm hst hflow hlate).mpr ⟨hlength, hx, hfrom, rfl⟩
      rw [hp, Option.elim_some]
      cases hq : s.prologue.placement? i with
      | none => exact htime
      | some q =>
        obtain ⟨st', hst', hearly⟩ := hs.early i q hq
        rw [hst] at hst'
        obtain rfl := Option.some.inj hst'
        have hnone := (prologueTime?_eq_ok_iff hm hst hearly).mpr ⟨hlength, .inr ⟨hnot, rfl⟩⟩
        rw [Option.elim_some, hnone]
        exact htime

/-- Looking up the time of a point with as many coordinates as the statement has does not fail. -/
theorem exists_time? (hs : s.Consistent m) (hm : m.Proper) {st : Statement}
    (hst : m.statements[i]? = some st) {x : List Int} (hlength : x.length = st.dims) :
    ∃ time, s.time? i x = .ok time := by
  have hlate : ∃ time, (s.steady.placement? i).elim (pure none) (s.steadyTime? i · x) = .ok time := by
    cases hp : s.steady.placement? i with
    | none => exact ⟨none, rfl⟩
    | some p =>
      obtain ⟨st', flow, hst', hp'⟩ := hs.late i p hp
      obtain rfl := Option.some.inj (hst.symm.trans hst')
      have hflow : s.flow i = flow := by rw [hs.flows i st hst, hp'.flows, Option.getD_some]
      rw [Option.elim_some, steadyTime?_eq hflow hp' hlength]
      split
      · obtain ⟨-, hregular, -⟩ := hm st (List.mem_of_getElem? hst)
        have hdomain : p.domain.Regular := by
          rw [hp'.domain]
          exact regular_firstPeriod hregular _ _ _
        have hmoved : (x.set flow (valuation x flow -
            (valuation x flow - s.offset i) / s.period i * s.period i)).length = p.domain.dims := by
          rw [List.length_set, hlength, ← hp'.dims_eq]
          rfl
        have hcontains := (PointSet.contains?_eq_ok_iff hdomain).mpr ⟨hmoved, rfl⟩
        simp only [hcontains, bind, Except.bind]
        split <;> exact ⟨_, rfl⟩
      · exact ⟨none, rfl⟩
  have hearly : ∃ time, (s.prologue.placement? i).elim (pure none) (s.prologueTime? · x) = .ok time := by
    cases hp : s.prologue.placement? i with
    | none => exact ⟨none, rfl⟩
    | some p =>
      obtain ⟨st', hst', hp'⟩ := hs.early i p hp
      obtain rfl := Option.some.inj (hst.symm.trans hst')
      by_cases hx : Solves (valuation x) (s.earlyDomain st i).cons
      · exact ⟨_, (prologueTime?_eq_ok_iff hm hst hp').mpr ⟨hlength, .inl ⟨hx, rfl⟩⟩⟩
      · exact ⟨_, (prologueTime?_eq_ok_iff hm hst hp').mpr ⟨hlength, .inr ⟨hx, rfl⟩⟩⟩
  obtain ⟨early, hearly⟩ := hearly
  rw [time?_eq, hearly]
  cases early with
  | some time => exact ⟨some time, rfl⟩
  | none => exact hlate

theorem exists_occurs (hs : s.Consistent m) {st : Statement} (hst : m.statements[i]? = some st)
    {x : List Int} (hlength : x.length = st.dims) (hx : Solves (valuation x) st.domain.cons) :
    ∃ t, s.Occurs m i x t := by
  have hearly (h : Solves (valuation x) (s.earlyDomain st i).cons) : ∃ t, s.Occurs m i x t := by
    obtain ⟨p, hp⟩ := hs.covered i st (valuation x) hst (PointSet.has_of_solves h)
    obtain ⟨st', hst', hearly⟩ := hs.early i p hp
    rw [hst] at hst'
    obtain rfl := Option.some.inj hst'
    exact ⟨_, .early hst hp hearly hlength h⟩
  cases hp : s.steady.placement? i with
  | none =>
    refine hearly ?_
    rw [earlyDomain, if_neg]
    · exact hx
    · simp [isSteady, Phase.isPresent, hp]
  | some p =>
    obtain ⟨st', flow, hst', hlate⟩ := hs.late i p hp
    rw [hst] at hst'
    obtain rfl := Option.some.inj hst'
    have hflow : s.flow i = flow := by rw [hs.flows i st hst, hlate.flows, Option.getD_some]
    by_cases hfrom : s.offset i ≤ valuation x flow
    · exact ⟨_, .late hst hp hlate hlength hx hfrom⟩
    · refine hearly ?_
      rw [earlyDomain, if_pos (isSteady_of_placement hp), hflow, solves_before hlate.inside]
      exact ⟨hx, by omega⟩

/-! ### Order -/

private theorem append_lt_append_iff {u v : List Int} (hlength : u.length = v.length) (w : List Int) :
    u ++ w < v ++ w ↔ u < v := by
  induction u generalizing v with
  | nil =>
    obtain rfl := List.length_eq_zero_iff.mp hlength.symm
    simp
  | cons a u ih =>
    cases v with
    | nil => cases hlength
    | cons b v =>
      rw [List.cons_append, List.cons_append, List.cons_lt_cons_iff, List.cons_lt_cons_iff,
        ih (Nat.succ.inj hlength)]

/-- What follows the first difference of two times does not matter. -/
private theorem decided_lt_iff {a b : List Int} (hlength : a.length = b.length) {o o' : Int}
    (hne : o ≠ o') (u v u' v' : List Int) :
    a ++ o :: u < b ++ o' :: v ↔ a ++ o :: u' < b ++ o' :: v' := by
  induction a generalizing b with
  | nil =>
    obtain rfl := List.length_eq_zero_iff.mp hlength.symm
    simp [List.cons_lt_cons_iff, hne]
  | cons x a ih =>
    cases b with
    | nil => cases hlength
    | cons y b =>
      simp only [List.cons_append, List.cons_lt_cons_iff]
      rw [ih (Nat.succ.inj hlength)]

/-- Filling up does not change the order of times that are of one length, or else differ in the order
of their statements. -/
theorem filled_up_lt_iff {a b : List Int} (hlength : a.length = b.length) {o o' : Int} {u v : List Int}
    (hsame : o = o' → u.length = v.length) (width : Nat) :
    (a ++ o :: u) ++ List.replicate (width - (a ++ o :: u).length) 0 <
      (b ++ o' :: v) ++ List.replicate (width - (b ++ o' :: v).length) 0 ↔ a ++ o :: u < b ++ o' :: v := by
  by_cases ho : o = o'
  · have hwhole : (a ++ o :: u).length = (b ++ o' :: v).length := by
      simp [hlength, hsame ho]
    rw [hwhole, append_lt_append_iff hwhole]
  · simp only [List.append_assoc, List.cons_append]
    exact decided_lt_iff hlength ho _ _ _ _

theorem earlyTime_lt_earlyTime_iff (hs : s.Consistent m) {i j : Nat} {p q : Placement}
    (hp : s.prologue.placement? i = some p) (hq : s.prologue.placement? j = some q) (x y : Nat → Int) :
    s.earlyTime p x < s.earlyTime q y ↔ p.timeAt x < q.timeAt y := by
  have hsame : (p.order : Int) = q.order → (p.inner.map x).length = (q.inner.map y).length := by
    intro horder
    obtain rfl := hs.earlyOrder i j p q hp hq (by exact_mod_cast horder)
    rw [hp] at hq
    obtain rfl := Option.some.inj hq
    rw [List.length_map, List.length_map]
  have hiff := filled_up_lt_iff (a := [0, p.thetaAt x]) (b := [0, q.thetaAt y]) rfl hsame s.width
  refine hiff.trans ?_
  simp only [List.cons_append, List.nil_append, Placement.timeAt, List.cons_lt_cons_iff]
  simp

/-- A number is split into its quotient and its remainder without changing the order. -/
private theorem split_lt_split_iff {n a b : Int} (hn : 0 < n) (u v : List Int) :
    (1 + a / n) :: (a % n) :: u < (1 + b / n) :: (b % n) :: v ↔ a :: u < b :: v := by
  have ha := Int.mul_ediv_add_emod a n
  have hb := Int.mul_ediv_add_emod b n
  have ha' := Int.emod_lt_of_pos a hn
  have hb' := Int.emod_lt_of_pos b hn
  have ha'' := Int.emod_nonneg a hn.ne'
  have hb'' := Int.emod_nonneg b hn.ne'
  simp only [List.cons_lt_cons_iff]
  rcases lt_trichotomy (a / n) (b / n) with hlt | heq | hgt
  · have hle : n * (a / n + 1) ≤ n * (b / n) := mul_le_mul_of_nonneg_left (by omega) hn.le
    rw [mul_add, mul_one] at hle
    constructor <;> intro <;> left <;> omega
  · rw [heq] at ha ⊢
    constructor
    · rintro (h | ⟨-, h | ⟨h, hu⟩⟩)
      · omega
      · exact .inl (by omega)
      · exact .inr ⟨by omega, hu⟩
    · rintro (h | ⟨rfl, hu⟩)
      · exact .inr ⟨rfl, .inl (by omega)⟩
      · exact .inr ⟨rfl, .inr ⟨rfl, hu⟩⟩
  · have hle : n * (b / n + 1) ≤ n * (a / n) := mul_le_mul_of_nonneg_left (by omega) hn.le
    rw [mul_add, mul_one] at hle
    constructor
    · rintro (h | ⟨h, -⟩) <;> omega
    · rintro (h | ⟨h, -⟩) <;> omega

theorem lateTime_lt_lateTime_iff (hs : s.Consistent m) {i j : Nat} {p q : Placement}
    (hp : s.steady.placement? i = some p) (hq : s.steady.placement? j = some q) (x y : Nat → Int) :
    s.lateTime p x < s.lateTime q y ↔ p.timeAt x < q.timeAt y := by
  have hsame : (p.order : Int) = q.order → (p.inner.map x).length = (q.inner.map y).length := by
    intro horder
    obtain rfl := hs.lateOrder i j p q hp hq (by exact_mod_cast horder)
    rw [hp] at hq
    obtain rfl := Option.some.inj hq
    rw [List.length_map, List.length_map]
  obtain ⟨st, flow, -, hlate⟩ := hs.late i p hp
  have hiff := filled_up_lt_iff (a := [1 + p.thetaAt x / s.length, p.thetaAt x % s.length])
    (b := [1 + q.thetaAt y / s.length, q.thetaAt y % s.length]) rfl hsame s.width
  exact hiff.trans (split_lt_split_iff hlate.length_pos _ _)

theorem earlyTime_lt_lateTime {st : Statement} {flow : Nat} {p q : Placement}
    (hq : s.Late i st flow q) (x : Nat → Int) {y : Nat → Int} (hfrom : s.offset i ≤ y flow) :
    s.earlyTime p x < s.lateTime q y := by
  have hperiods : 0 ≤ q.thetaAt y / s.length :=
    Int.ediv_nonneg ((hq.thetaAt_nonneg_iff y).mpr hfrom) hq.length_pos.le
  simp only [earlyTime, lateTime, filled, List.cons_append, List.cons_lt_cons_iff]
  left
  omega

end Schedule

end StreamLoom
