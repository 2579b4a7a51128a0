import StreamLoom.Proofs.Schedule.Placing
import StreamLoom.Proofs.Schedule.Balance

/-!
# Synthesized schedules

`Parts` holds what a synthesis finds on its way, and `Consistent` is what remains of it for those who
only look at the schedule. A statement of the steady state executes all points from its offset on
there, the same ones in every period, and everything else in the prologue.

The offset of a statement is the first index whose step is not before the start of the steady state.
Since all scales divide the length of a period, the steps of a period then start at zero and stay below
its length, for every statement alike.
-/

namespace StreamLoom

attribute [local instance] Arithmetic.exact

open StreamLoom.System (Solves Over)

theorem Arithmetic.ceilDiv_spec (a : Int) {b : Int} (hb : 0 < b) :
    a ≤ b * ceilDiv a b ∧ b * (ceilDiv a b - 1) < a := by
  simp only [ceilDiv, floorDiv, fit_exact]
  rw [Int.fdiv_eq_ediv_of_nonneg _ hb.le]
  have hlow := Int.mul_ediv_self_le (x := -a) hb.ne'
  have hhigh := Int.lt_mul_ediv_self_add (x := -a) hb
  constructor
  · rw [Int.mul_neg]
    omega
  · rw [Int.mul_sub, Int.mul_neg, Int.mul_one]
    omega

namespace Schedule

variable {m : Model}

/-! ### Steady statements -/

/-- A constraint that bounds the flow dimension only from below. -/
private theorem periodic_cases {c : Constraint} {flow : Nat} (h : isPeriodic flow c = true) :
    c.coeff flow = 0 ∨
      c.equality = false ∧ 0 ≤ c.coeff flow ∧ ∀ v, v ≠ flow → c.coeff v = 0 := by
  rw [isPeriodic, Bool.or_eq_true, beq_iff_eq, Bool.and_eq_true, List.all_eq_true] at h
  refine h.imp_right fun ⟨hequality, hall⟩ => ?_
  have hcoeff : ∀ v, 0 ≤ c.coeff v ∧ (v = flow ∨ c.coeff v = 0) := by
    intro v
    by_cases hv : v < c.coeffs.length
    · have hone := hall (c.coeffs[v], v) (List.mem_zipIdx_iff_getElem?.mpr (List.getElem?_eq_getElem hv))
      have hget : c.coeff v = c.coeffs[v] := by
        rw [Constraint.coeff, Affine.coeff, List.getD_eq_getElem?_getD]
        exact congrArg (·.getD 0) (List.getElem?_eq_getElem hv)
      rw [hget]
      simpa using hone
    · have hzero : c.coeff v = 0 := Affine.coeff_of_le (Nat.le_of_not_lt hv)
      simp [hzero]
  exact ⟨by simpa using hequality, (hcoeff flow).1, fun v hv => (hcoeff v).2.resolve_left hv⟩

/-- What is known of the lowest flow index of a statement without an end. -/
structure Starts (st : Statement) (flow : Nat) (low : Int) : Prop where
  periodic : ∀ c ∈ st.domain.cons, isPeriodic flow c = true
  lowest : ∃ y : Nat → ℚ, Solves y st.domain.cons ∧ y flow = low
  least : ∀ x : Nat → Int, Solves x st.domain.cons → low ≤ x flow

theorem starts_of_steadyLow {st : Statement} {flow : Nat} {low : Int} (hregular : st.domain.Regular)
    (hflow : flow < st.dims) (h : steadyLow st flow = .ok (some low)) : Starts st flow low := by
  simp only [steadyLow] at h
  split at h
  · cases h
  · rename_i interval hbound
    split at h
    · cases h
    · rename_i hinfinite
      split at h
      · cases h
      · rename_i hperiodic
        obtain ⟨low', hlow, hpure⟩ := Outcome.bind_eq_ok h
        cases hpure
        have hlower : interval.lower = .int low := by
          have hvalue := Outcome.mapError_eq_ok hlow
          cases hl : interval.lower with
          | int v =>
            rw [hl] at hvalue
            cases hvalue
            rfl
          | negInf =>
            rw [hl] at hvalue
            cases hvalue
          | posInf =>
            rw [hl] at hvalue
            cases hvalue
        have hcontains : interval.contains low = true := by
          rw [Interval.contains_iff]
          have hordered := interval.ordered
          rw [hlower] at hordered
          exact ⟨by rw [hlower]; simp, hordered⟩
        obtain ⟨y, hy, hvalue⟩ := PointSet.exists_solves_of_bound hregular (by simp [Statement.dims])
          hbound hcontains
        rw [Affine.valueAt_var hflow] at hvalue
        refine ⟨by simpa using hperiodic, ⟨y, hy, hvalue⟩, fun x hx => ?_⟩
        obtain ⟨interval', hbound', hinside⟩ := PointSet.bound_of_has hregular
          (show (Affine.var st.dims flow).vars = st.domain.dims by simp [Statement.dims])
          (PointSet.has_of_solves hx)
        obtain rfl := Option.some.inj (hbound.symm.trans hbound')
        rw [Affine.valueAt_var hflow, Interval.contains_iff, hlower, Extended.int_le_int] at hinside
        exact hinside.1

/-- A statement has no lowest flow index only where its indices are bounded from above. -/
theorem bounded_of_steadyLow {st : Statement} {flow : Nat} (hregular : st.domain.Regular)
    (hlocals : st.domain.locals = 0) (hflow : flow < st.dims) (h : steadyLow st flow = .ok none) :
    ∃ upper : Int, ∀ x : Nat → Int, Solves x st.domain.cons → x flow ≤ upper := by
  have hbound {x : Nat → Int} (hx : Solves x st.domain.cons) :
      ∃ interval, st.domain.bound (.var st.dims flow) = some interval ∧ .int (x flow) ≤ interval.upper := by
    obtain ⟨interval, hbound, hcontains⟩ := PointSet.bound_of_has hregular
      (show (Affine.var st.dims flow).vars = st.domain.dims by simp [Statement.dims])
      ((PointSet.has_iff_solves hregular hlocals).mpr hx)
    rw [Affine.valueAt_var hflow] at hcontains
    exact ⟨interval, hbound, (Interval.contains_iff.mp hcontains).2⟩
  simp only [steadyLow] at h
  split at h
  · rename_i hnone
    refine ⟨0, fun x hx => ?_⟩
    obtain ⟨interval, hsome, -⟩ := hbound hx
    rw [hnone] at hsome
    cases hsome
  · rename_i interval hsome
    split at h
    · rename_i hfinite
      cases hupper : interval.upper with
      | int upper =>
        refine ⟨upper, fun x hx => ?_⟩
        obtain ⟨interval', hsome', hle⟩ := hbound hx
        obtain rfl := Option.some.inj (hsome.symm.trans hsome')
        rwa [hupper, Extended.int_le_int] at hle
      | negInf =>
        rw [hupper] at hfinite
        cases hfinite
      | posInf =>
        rw [hupper] at hfinite
        cases hfinite
    · split at h
      · cases h
      · obtain ⟨low, -, hpure⟩ := Outcome.bind_eq_ok h
        cases hpure

/-- From its lowest index on, every index of the flow dimension is as good as any other. -/
theorem Starts.solves_update {st : Statement} {flow : Nat} {low : Int} (h : Starts st flow low)
    {x : Nat → Int} (hx : Solves x st.domain.cons) {t : Int} (ht : low ≤ t) :
    Solves (Function.update x flow t) st.domain.cons := by
  intro c hc
  rcases periodic_cases (h.periodic c hc) with hzero | ⟨hequality, hnonneg, honly⟩
  · refine (Constraint.admits_congr fun i hi => ?_).mp (hx c hc)
    rw [Function.update_of_ne]
    rintro rfl
    exact hi hzero
  · obtain ⟨y, hy, hlow⟩ := h.lowest
    have hat := hy c hc
    rw [Constraint.Admits, if_neg (by simp [hequality]), System.valueAt_of_only honly, hlow] at hat
    rw [Constraint.Admits, if_neg (by simp [hequality]), System.valueAt_of_only honly,
      Function.update_self]
    have hlow' : 0 ≤ c.const + c.coeff flow * low := by exact_mod_cast hat
    have hmono := mul_le_mul_of_nonneg_left ht hnonneg
    simp only [Int.cast_id]
    omega

/-! ### Rates and scales -/

theorem rate_pos {steady : List Bool} {rates : Rates Int} (hrates : Rates.ofModel m steady = .ok rates)
    {a : Nat} {rate : Int} (hrate : rates.lookup a = some rate) :
    0 < rate ∧ 0 < rates.period ∧ rate ∣ rates.period := by
  have hpos := (Rates.ofModel_spec hrates).1
  have hmem := Rates.mem_of_lookup hrate
  obtain ⟨hperiod, hdvd⟩ := Rates.dvd_period hpos hmem
  exact ⟨hpos _ hmem, hperiod, hdvd⟩

section

variable {steady : List Bool} {rates : Rates Int} {scales : List Int} {i : Nat} {st : Statement}

theorem scale_mul_rate (hrates : Rates.ofModel m steady = .ok rates) (hscales : scalesOf m rates = .ok scales)
    (hst : m.statements[i]? = some st) {rate : Int} (hrate : rates.lookup st.array = some rate) :
    scales.getD i 1 * rate = rates.period := by
  obtain ⟨scale, hget, hscale⟩ := Outcome.getElem?_of_forall₂ (Outcome.forall₂_of_mapM hscales) hst
  obtain ⟨hpos, -, hdvd⟩ := rate_pos hrates hrate
  rw [hrate] at hscale
  obtain ⟨_, -, hscale⟩ := Outcome.bind_eq_ok hscale
  cases hscale
  rw [List.getD_eq_getElem?_getD, hget, Option.getD_some, Arithmetic.truncDiv, Arithmetic.fit_exact]
  exact Int.tdiv_mul_cancel hdvd

theorem scale_pos (hrates : Rates.ofModel m steady = .ok rates) (hscales : scalesOf m rates = .ok scales)
    (i : Nat) : 0 < scales.getD i 1 := by
  cases hst : m.statements[i]? with
  | none =>
    have hlength := (Outcome.forall₂_of_mapM hscales).length_eq
    have hnone : scales[i]? = none := by
      rw [List.getElem?_eq_none_iff] at hst ⊢
      omega
    rw [List.getD_eq_getElem?_getD, hnone]
    exact one_pos
  | some st =>
    obtain ⟨scale, hget, hscale⟩ := Outcome.getElem?_of_forall₂ (Outcome.forall₂_of_mapM hscales) hst
    cases hrate : rates.lookup st.array with
    | none =>
      rw [hrate] at hscale
      cases hscale
      rw [List.getD_eq_getElem?_getD, hget]
      exact one_pos
    | some rate =>
      obtain ⟨hpos, hperiod, -⟩ := rate_pos hrates hrate
      have hmul := scale_mul_rate hrates hscales hst hrate
      rw [← hmul] at hperiod
      exact (pos_iff_pos_of_mul_pos hperiod).mpr hpos

end

/-! ### Parts of a synthesis -/

structure Parts where
  lows : List (Option Int)
  rates : Rates Int
  scales : List Int
  placed : List (Option Placement)
  start : Int
  offsets : List Int
  placedEarly : List (Option Placement)

namespace Parts

def low (parts : Parts) (i : Nat) : Option Int := (parts.lows[i]?).join

/-- The statements which are placed before the start of the steady state is known. -/
def chosen (parts : Parts) (m : Model) (whole : Bool) : List Nat :=
  if whole then List.range m.statements.length
  else (List.range m.statements.length).filter fun i => (parts.low i).isSome

def domains (parts : Parts) (m : Model) : List PointSet := prologueDomains m parts.lows parts.offsets

def early (parts : Parts) (m : Model) : List Nat :=
  (List.range m.statements.length).filter fun i => ((parts.domains m)[i]?).any (!·.isEmpty)

/-- The statements of the prologue, and what they are restricted to. -/
def selection (parts : Parts) (m : Model) (whole : Bool) : Selection :=
  if whole then ⟨List.range m.statements.length, none⟩ else ⟨parts.early m, some (parts.domains m)⟩

def schedule (parts : Parts) (m : Model) : Schedule where
  names := m.statements.map (·.name)
  flows := m.statements.map (·.flow)
  prologue := ⟨(List.range m.statements.length).map fun i => do
      let p ← (parts.placedEarly[i]?).join
      if (parts.early m).contains i then return { p with domain := ← (parts.domains m)[i]? } else none,
    if (parts.early m).isEmpty then 2 else Placement.widthOf (parts.placedEarly.filterMap id)⟩
  steady := phaseOf ((List.range m.statements.length).map fun i => do
    let s ← m.statements[i]?
    let _ ← (parts.lows[i]?).join
    return steadyPlacement s (parts.offsets.getD i 0)
      ((m.statements.map fun s => (parts.rates.lookup s.array).getD 0).getD i 0) parts.start
      (← (parts.placed[i]?).join))
  length := parts.rates.period
  start := parts.start
  offsets := parts.offsets
  periods := m.statements.map fun s => (parts.rates.lookup s.array).getD 0

structure Found (parts : Parts) (m : Model) (options : ScheduleOptions) : Prop where
  lows : steadyLows m = .ok parts.lows
  rates : Rates.ofModel m (parts.lows.map (·.isSome)) = .ok parts.rates
  scales : scalesOf m parts.rates = .ok parts.scales
  placed : (place m ⟨parts.chosen m options.whole, none⟩ parts.scales options.optimize true).Yields
    parts.placed
  start : startOf m parts.lows parts.placed = .ok parts.start
  offsets : offsetsOf parts.lows parts.placed parts.scales parts.start = .ok parts.offsets
  placedEarly : (if options.whole then pure parts.placed else place m
    ⟨parts.early m, some (parts.domains m)⟩ parts.scales options.optimize false).Yields parts.placedEarly

end Parts

theorem synthesize_cases {options : ScheduleOptions} {s : Schedule}
    (h : (synthesize m options).execute.1 = .ok s) :
    ∃ parts : Parts, parts.Found m options ∧ s = parts.schedule m := by
  have hyields := Stage.yields_of_execute h
  simp only [synthesize] at hyields
  obtain ⟨lows, hlows, hyields⟩ := Stage.yields_bind hyields
  obtain ⟨rates, hrates, hyields⟩ := Stage.yields_bind hyields
  obtain ⟨scales, hscales, hyields⟩ := Stage.yields_bind hyields
  obtain ⟨_, -, hyields⟩ := Stage.yields_bind hyields
  obtain ⟨placed, hplaced, hyields⟩ := Stage.yields_bind hyields
  obtain ⟨start, hstart, hyields⟩ := Stage.yields_bind hyields
  obtain ⟨offsets, hoffsets, hyields⟩ := Stage.yields_bind hyields
  obtain ⟨_, -, hyields⟩ := Stage.yields_bind hyields
  have hlows := Stage.yields_ofExcept hlows
  have hrates := Stage.yields_ofExcept hrates
  have hscales := Stage.yields_ofGuarded hscales
  have hstart := Stage.yields_ofExcept hstart
  have hoffsets := Stage.yields_ofGuarded hoffsets
  split at hyields
  · rename_i hwhole
    obtain ⟨placedEarly, hplacedEarly, hyields⟩ := Stage.yields_bind hyields
    obtain rfl := Stage.yields_pure hyields
    refine ⟨⟨lows, rates, scales, placed, start, offsets, placedEarly⟩,
      ⟨hlows, hrates, hscales, hplaced, hstart, hoffsets, ?_⟩, rfl⟩
    rw [if_pos hwhole]
    exact hplacedEarly
  · rename_i hwhole
    obtain ⟨placedEarly, hplacedEarly, hyields⟩ := Stage.yields_bind hyields
    obtain rfl := Stage.yields_pure hyields
    refine ⟨⟨lows, rates, scales, placed, start, offsets, placedEarly⟩,
      ⟨hlows, hrates, hscales, hplaced, hstart, hoffsets, ?_⟩, rfl⟩
    rw [if_neg hwhole]
    exact hplacedEarly

namespace Parts.Found

variable {parts : Parts} {options : ScheduleOptions} {i : Nat} {st : Statement}

theorem length_lows (h : parts.Found m options) : parts.lows.length = m.statements.length :=
  (Outcome.forall₂_of_mapM h.lows).length_eq.symm

theorem getElem?_lows (h : parts.Found m options) (hst : m.statements[i]? = some st) :
    parts.lows[i]? = some (parts.low i) := by
  obtain ⟨low, hlow, -⟩ := Outcome.getElem?_of_forall₂ (Outcome.forall₂_of_mapM h.lows) hst
  rw [Parts.low, hlow]
  rfl

theorem statement_of_low (h : parts.Found m options) {v : Int} (hlow : parts.low i = some v) :
    ∃ st, m.statements[i]? = some st := by
  have hget : parts.lows[i]? = some (some v) := by simpa [low, Option.join_eq_some_iff] using hlow
  have hlt := (List.getElem?_eq_some_iff.mp hget).1
  rw [h.length_lows] at hlt
  exact ⟨_, List.getElem?_eq_getElem hlt⟩

theorem starts (h : parts.Found m options) (hm : m.Proper) (hst : m.statements[i]? = some st) {v : Int}
    (hlow : parts.low i = some v) : ∃ flow, st.flow = some flow ∧ flow < st.dims ∧ Starts st flow v := by
  obtain ⟨-, hregular, hflow⟩ := hm st (List.mem_of_getElem? hst)
  obtain ⟨low, hget, hsteady⟩ := Outcome.getElem?_of_forall₂ (Outcome.forall₂_of_mapM h.lows) hst
  rw [h.getElem?_lows hst, hlow] at hget
  obtain rfl := Option.some.inj hget
  split at hsteady
  · rename_i flow hsome
    exact ⟨flow, hsome, hflow flow hsome, starts_of_steadyLow hregular (hflow flow hsome) hsteady⟩
  · cases hsteady

/-! ### Scales -/

theorem rate_pos (h : parts.Found m options) {a : Nat} {rate : Int}
    (hrate : parts.rates.lookup a = some rate) :
    0 < rate ∧ 0 < parts.rates.period ∧ rate ∣ parts.rates.period :=
  Schedule.rate_pos h.rates hrate

theorem exists_rate (h : parts.Found m options) (hst : m.statements[i]? = some st) {v : Int}
    (hlow : parts.low i = some v) : ∃ rate, parts.rates.lookup st.array = some rate := by
  refine (Rates.ofModel_spec h.rates).2 i st hst ?_
  rw [List.getElem?_map, h.getElem?_lows hst, hlow]
  rfl

theorem streams_of_rate (h : parts.Found m options) (hm : m.Proper) {a : Nat} {rate : Int}
    (hrate : parts.rates.lookup a = some rate) : m.Streams a := by
  refine Rates.streams_of_ofModel h.rates (fun i st hst hsteady => ?_) hrate
  rw [List.getElem?_map, h.getElem?_lows hst, Option.map_some, Option.some.injEq,
    Option.isSome_iff_exists] at hsteady
  obtain ⟨v, hlow⟩ := hsteady
  obtain ⟨flow, hflow, -⟩ := h.starts hm hst hlow
  exact ⟨flow, hflow⟩

theorem scale_mul_rate (h : parts.Found m options) (hst : m.statements[i]? = some st) {rate : Int}
    (hrate : parts.rates.lookup st.array = some rate) :
    parts.scales.getD i 1 * rate = parts.rates.period :=
  Schedule.scale_mul_rate h.rates h.scales hst hrate

theorem scale_pos (h : parts.Found m options) (i : Nat) : 0 < parts.scales.getD i 1 :=
  Schedule.scale_pos h.rates h.scales i

/-! ### Placements -/

theorem nodup_chosen : (parts.chosen m options.whole).Nodup := by
  unfold chosen
  split
  · exact List.nodup_range
  · exact List.nodup_range.filter _

theorem lt_of_mem_chosen : ∀ i ∈ parts.chosen m options.whole, i < m.statements.length := by
  intro i hi
  unfold chosen at hi
  split at hi
  · exact List.mem_range.mp hi
  · exact List.mem_range.mp (List.mem_of_mem_filter hi)

theorem mem_chosen (h : parts.Found m options) {v : Int} (hlow : parts.low i = some v) :
    i ∈ parts.chosen m options.whole := by
  obtain ⟨st, hst⟩ := h.statement_of_low hlow
  have hrange : i ∈ List.range m.statements.length :=
    List.mem_range.mpr (List.getElem?_eq_some_iff.mp hst).1
  unfold chosen
  split
  · exact hrange
  · simp [hlow, List.mem_range.mp hrange]

theorem placed_placed (h : parts.Found m options) : ∃ delays sequence,
    Placed m ⟨parts.chosen m options.whole, none⟩ parts.scales options.optimize true parts.placed delays
      sequence :=
  place_placed nodup_chosen lt_of_mem_chosen h.placed

theorem placed_of_low (h : parts.Found m options) (hm : m.Proper) (hst : m.statements[i]? = some st)
    {v : Int} (hlow : parts.low i = some v) :
    ∃ p flow, (parts.placed[i]?).join = some p ∧ st.flow = some flow ∧ p.carrier = some flow ∧
      p.scale = parts.scales.getD i 1 ∧ p.domain = st.domain := by
  obtain ⟨flow, hflow, -⟩ := h.starts hm hst hlow
  obtain ⟨delays, sequence, hplaced⟩ := h.placed_placed
  obtain ⟨k, hk⟩ := List.getElem?_of_mem (h.mem_chosen hlow)
  refine ⟨_, flow, hplaced.chosen i k st hk hst, hflow, ?_, ?_, rfl⟩
  · simp [Problem.placedBy, Selection.entry, entryOf, carrierOf, hflow]
  · simp [Problem.placedBy, Selection.entry, entryOf, Statement.isInfinite, hflow]

/-! ### Start -/

private theorem le_foldl_max (xs : List Int) (a : Int) :
    a ≤ xs.foldl max a ∧ ∀ x ∈ xs, x ≤ xs.foldl max a := by
  induction xs generalizing a with
  | nil => simp
  | cons x xs ih =>
    obtain ⟨hfirst, hrest⟩ := ih (max a x)
    rw [List.foldl_cons]
    refine ⟨le_trans (le_max_left a x) hfirst, fun y hy => ?_⟩
    rcases List.mem_cons.mp hy with rfl | hy
    · exact le_trans (le_max_right a y) hfirst
    · exact hrest y hy

/-- When the steady state starts, each of its statements has started. -/
theorem started (h : parts.Found m options) {v : Int} (hlow : parts.low i = some v) {p : Placement}
    (hp : (parts.placed[i]?).join = some p) : p.scale * v + p.delay ≤ parts.start := by
  have hstart := h.start
  simp only [startOf, Arithmetic.fit_exact] at hstart
  obtain ⟨reads, -, hpure⟩ := Outcome.bind_eq_ok hstart
  rw [← Except.ok.inj hpure]
  refine (le_foldl_max _ 0).2 _ (List.mem_append_left _ (List.mem_filterMap.mpr ⟨(some v, some p), ?_, rfl⟩))
  refine List.mem_of_getElem? (i := i) ?_
  rw [List.getElem?_zip_eq_some]
  exact ⟨by simpa [low, Option.join_eq_some_iff] using hlow,
    by simpa [Option.join_eq_some_iff] using hp⟩

/-- What a statement outside of the steady state reads is written before the steady state starts. -/
theorem read_before (h : parts.Found m options) {d : Dependency} (hmem : d ∈ m.dependencies)
    {producer consumer : Statement} (hd : d.Joins m producer consumer) {v : Int}
    (hproducer : parts.low d.producer = some v) (hconsumer : parts.low d.consumer = none)
    {p : Placement} (hp : (parts.placed[d.producer]?).join = some p)
    (hcarrier : ∀ c, p.carrier = some c → c < producer.dims) {x y : Nat → Int}
    (hxy : d.relation.Links x y) : p.thetaAt y < parts.start := by
  have hstart := h.start
  simp only [startOf, Arithmetic.fit_exact] at hstart
  obtain ⟨reads, hreads, hpure⟩ := Outcome.bind_eq_ok hstart
  obtain ⟨k, hk⟩ := List.getElem?_of_mem hmem
  obtain ⟨step, hstep, hread⟩ := Outcome.getElem?_of_forall₂ (Outcome.forall₂_of_mapM hreads) hk
  have hle : step ≤ parts.start := by
    rw [← Except.ok.inj hpure]
    exact (le_foldl_max _ 0).2 _ (List.mem_append_right _ (List.mem_of_getElem? hstep))
  have hread : lastRead m d p = .ok step := by
    simpa [hp, show (parts.lows[d.producer]?).join = some v from hproducer,
      show (parts.lows[d.consumer]?).join = none from hconsumer] using hread
  have hcarried : ∀ c, p.carrier = some c → d.relation.inputs + c < d.relation.dims := by
    intro c hc
    have := hcarrier c hc
    rw [Relation.dims, hd.outputs]
    omega
  have hvars : ((Affine.carried d.relation.dims d.relation.inputs p.carrier p.scale).plus p.delay).vars =
      d.relation.pairs.dims := by
    rw [Affine.vars_plus, Affine.vars_carried]
    rfl
  obtain ⟨upper, hupper, hbound⟩ := PointSet.maximum_of_has (Relation.regular_pairs.mpr hd.regular) hvars
    (Relation.links_iff_has.mp hxy)
  rw [Affine.valueAt_plus, Affine.valueAt_carried _ hcarried] at hbound
  simp only [Relation.joined_add] at hbound
  simp only [lastRead, hupper, Arithmetic.fit_exact] at hread
  split at hread
  · rename_i hnone
    cases hnone
  · rename_i last hlast
    cases hread
    obtain rfl := Option.some.inj hlast
    have hlatest : carriedAt p.carrier p.scale y + p.delay ≤ last := Extended.int_le_int.mp hbound
    rw [Placement.thetaAt]
    omega
  · cases hread

/-- The offset of a statement is the first index whose step is not before the start. -/
theorem offset_spec (h : parts.Found m options) (hst : m.statements[i]? = some st) {v : Int}
    (hlow : parts.low i = some v) {p : Placement} (hp : (parts.placed[i]?).join = some p) :
    parts.offsets[i]? = some (Arithmetic.ceilDiv (parts.start - p.delay) (parts.scales.getD i 1)) := by
  obtain ⟨scale, hscale, -⟩ := Outcome.getElem?_of_forall₂ (Outcome.forall₂_of_mapM h.scales) hst
  have hzip : (parts.lows.zip (parts.placed.zip parts.scales))[i]? = some (some v, some p, scale) := by
    rw [List.getElem?_zip_eq_some, List.getElem?_zip_eq_some]
    exact ⟨by rw [h.getElem?_lows hst, hlow], by simpa [Option.join_eq_some_iff] using hp, hscale⟩
  obtain ⟨offset, hget, hoffset⟩ := Outcome.getElem?_of_forall₂ (Outcome.forall₂_of_mapM h.offsets) hzip
  obtain ⟨_, -, hoffset⟩ := Outcome.bind_eq_ok hoffset
  cases hoffset
  rw [hget, List.getD_eq_getElem?_getD, hscale]
  rfl

/-- The statements of a stream have the same offset, since they have the same delay and the same scale. -/
theorem offset_eq (h : parts.Found m options) (hm : m.Proper) {j : Nat} {st' : Statement}
    (hst : m.statements[i]? = some st) (hst' : m.statements[j]? = some st') (harray : st.array = st'.array)
    {v w : Int} (hlow : parts.low i = some v) (hlow' : parts.low j = some w) :
    parts.offsets.getD i 0 = parts.offsets.getD j 0 := by
  obtain ⟨flow, hflow, -⟩ := h.starts hm hst hlow
  obtain ⟨flow', hflow', -⟩ := h.starts hm hst' hlow'
  obtain ⟨rate, hrate⟩ := h.exists_rate hst hlow
  have hscale : parts.scales.getD i 1 = parts.scales.getD j 1 := by
    have hmul := h.scale_mul_rate hst hrate
    rw [← h.scale_mul_rate hst' (harray ▸ hrate)] at hmul
    exact Int.eq_of_mul_eq_mul_right (h.rate_pos hrate).1.ne' hmul
  obtain ⟨delays, sequence, hplaced⟩ := h.placed_placed
  obtain ⟨k, hk⟩ := List.getElem?_of_mem (h.mem_chosen hlow)
  obtain ⟨l, hl⟩ := List.getElem?_of_mem (h.mem_chosen hlow')
  have hp := hplaced.chosen i k st hk hst
  have hq := hplaced.chosen j l st' hl hst'
  have hdelay : delays.getD k 0 = delays.getD l 0 := by
    apply hplaced.solution.delay_eq (getElem?_entries _ _ _ lt_of_mem_chosen hk hst)
      (getElem?_entries _ _ _ lt_of_mem_chosen hl hst')
    · show _ = some st.array
      simp [Selection.entry, entryOf, Statement.isInfinite, hflow]
    · simp [Selection.entry, entryOf, Statement.isInfinite, hflow', harray]
  rw [List.getD_eq_getElem?_getD, List.getD_eq_getElem?_getD, h.offset_spec hst hlow hp,
    h.offset_spec hst' hlow' hq, hscale]
  simp only [Problem.placedBy, hdelay]

end Parts.Found

end Schedule

end StreamLoom
