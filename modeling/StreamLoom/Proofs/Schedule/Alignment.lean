import StreamLoom.Proofs.Model.Build
import StreamLoom.Proofs.Schedule.Causality

/-!
# Alignment of periods

The statements of a stream start their steady state at one index, and a period has as many indices for
all of them. For each statement a period is as long as the steps between its indices make it, so that the
points of a period are those whose steps fall into it. What is laid out by the periods of a stream, such as
its buffer, does not have to know which statement writes an element.
-/

namespace StreamLoom

attribute [local instance] Arithmetic.exact

open StreamLoom.System (Solves)

namespace Schedule

variable {s : Schedule} {m : Model} {i : Nat} {st : Statement} {flow : Nat} {p : Placement}

def InPeriod (s : Schedule) (i flow : Nat) (k : Int) (x : List Int) : Prop :=
  s.offset i + k * s.period i ≤ valuation x flow ∧ valuation x flow < s.offset i + (k + 1) * s.period i

/-- A statement of the steady state is aligned with the periods. It starts when its flow has started, its
placement is that of the first period, and a point takes its step in the period of its index. -/
structure Aligned (s : Schedule) (i : Nat) (st : Statement) (flow : Nat) (p : Placement) : Prop where
  flows : st.flow = some flow
  positive : 0 < s.period i
  scaled : p.scale * s.period i = s.length
  started : ∃ low, low ≤ s.offset i ∧ ∀ x, st.domain.Includes x →
    low ≤ valuation x flow ∧ st.domain.Includes (x.set flow low)
  first : ∀ x, p.domain.Includes x ↔ st.domain.Includes x ∧ s.InPeriod i flow 0 x
  leading : ∀ (k : Int) (x : List Int), st.domain.Includes x → s.InPeriod i flow k x →
    ∃ step, p.theta? x = .ok step ∧ 0 ≤ step - k * s.length ∧ step - k * s.length < s.length ∧
      (0 ≤ k → ∃ rest, s.time? i x = .ok (some ((1 + k) :: (step - k * s.length) :: rest)))

theorem inPeriod_iff (hp : s.Late i st flow p) {k : Int} {x : List Int} :
    s.InPeriod i flow k x ↔ (valuation x flow - s.offset i) / s.period i = k := by
  rw [InPeriod, Int.ediv_eq_iff_of_pos hp.period]
  constructor <;> rintro ⟨hfirst, hlast⟩ <;> constructor <;> linarith

theorem Late.thetaAt_of_inPeriod (hp : s.Late i st flow p) {k : Int} {x : List Int}
    (hx : s.InPeriod i flow k x) :
    p.thetaAt (valuation x) / s.length = k ∧
      p.thetaAt (valuation x) % s.length = p.thetaAt (valuation x) - k * s.length := by
  obtain ⟨hquotient, hremainder⟩ := hp.ediv_length (valuation x)
  rw [(inPeriod_iff hp).mp hx] at hquotient hremainder
  exact ⟨hquotient, hremainder⟩

theorem Late.theta?_eq (hp : s.Late i st flow p) {x : List Int} (hlength : x.length = st.dims) :
    p.theta? x = .ok (p.thetaAt (valuation x)) := by
  have hinside : flow < x.length := by
    rw [hlength]
    exact hp.inside
  simp only [Placement.theta?, Placement.theta, hp.carrier, elementAt_eq hinside, hp.thetaAt_eq,
    Arithmetic.fit_exact]
  rfl

/-- A statement of the steady state takes the steps of each period for the points of that period. -/
theorem aligned_of_late (hs : s.Consistent m) (hm : m.Proper) (hst : m.statements[i]? = some st)
    (hp : s.steady.placement? i = some p) (hlate : s.Late i st flow p) {low : Int}
    (hstarts : Starts st flow low) (hlow : low ≤ s.offset i) : s.Aligned i st flow p := by
  obtain ⟨hlocals, hregular, -⟩ := hm st (List.mem_of_getElem? hst)
  have hincludes : ∀ x, st.domain.Includes x ↔ x.length = st.dims ∧ Solves (valuation x) st.domain.cons := by
    intro x
    rw [PointSet.includes_iff hregular, PointSet.has_iff_solves hregular hlocals]
    rfl
  have hlength := hlate.length_pos
  refine ⟨hlate.flows, hlate.period, hlate.length, ⟨low, hlow, fun x hx => ?_⟩, fun x => ?_, fun k x hx hk => ?_⟩
  · obtain ⟨hdims, hsolves⟩ := (hincludes x).mp hx
    refine ⟨hstarts.least _ hsolves, (hincludes _).mpr ⟨by rw [List.length_set, hdims], ?_⟩⟩
    rw [valuation_set (by rw [hdims]; exact hlate.inside)]
    exact hstarts.solves_update hsolves le_rfl
  · have hdomain : p.domain.Regular := by
      rw [hlate.domain]
      exact regular_firstPeriod hregular _ _ _
    rw [PointSet.includes_iff hdomain, PointSet.has_iff_solves hdomain (by rw [hlate.domain]; exact hlocals),
      hincludes, InPeriod, and_assoc, hlate.domain, solves_firstPeriod hlate.inside, zero_mul, add_zero,
      zero_add, one_mul]
    rfl
  · obtain ⟨hdims, hsolves⟩ := (hincludes x).mp hx
    obtain ⟨hquotient, hremainder⟩ := hlate.thetaAt_of_inPeriod hk
    refine ⟨_, hlate.theta?_eq hdims, ?_, ?_, fun hpos => ?_⟩
    · rw [← hremainder]
      exact Int.emod_nonneg _ hlength.ne'
    · rw [← hremainder]
      exact Int.emod_lt_of_pos _ hlength
    · have hfrom : s.offset i ≤ valuation x flow := by
        have hperiods := mul_nonneg hpos hlate.period.le
        have hfirst := hk.1
        omega
      have htime := (time?_eq_some_iff hs hm).mpr (.late hst hp hlate hdims hsolves hfrom)
      rw [lateTime, hquotient, hremainder] at htime
      exact ⟨_, htime⟩

/-- In a schedule that was synthesized, the statements of a stream are aligned with one another, and each
statement of the steady state with the periods. -/
theorem aligned_of_synthesize {options : ScheduleOptions} (hm : m.Proper)
    (hs : (synthesize m options).execute.1 = .ok s) :
    (∀ i j st st', m.statements[i]? = some st → m.statements[j]? = some st' → st.array = st'.array →
      s.isSteady i = true → s.isSteady j = true → s.offset i = s.offset j ∧ s.period i = s.period j) ∧
    ∀ i, s.isSteady i = true → ∃ st flow p, m.statements[i]? = some st ∧
      s.steady.placement? i = some p ∧ s.Aligned i st flow p := by
  have hconsistent := consistent_of_synthesize hm hs
  refine ⟨fun i j st st' hst hst' harray hi hj => ?_, fun i hi => ?_⟩
  · exact ⟨offset_eq_of_synthesize hm hs hst hst' harray hi hj, hconsistent.periods i j st st' hst hst' harray⟩
  · obtain ⟨p, hp⟩ := Option.isSome_iff_exists.mp hi
    obtain ⟨st, flow, hst, hlate⟩ := hconsistent.late i p hp
    obtain ⟨st', flow', low, hst', hflow', hstarts, hlow⟩ := exists_low_of_synthesize hm hs hi
    obtain rfl := Option.some.inj (hst.symm.trans hst')
    obtain rfl := Option.some.inj (hlate.flows.symm.trans hflow')
    exact ⟨st, flow, p, hst, hp, aligned_of_late hconsistent hm hst hp hlate hstarts hlow⟩

end Schedule

/-- A stream with two lanes, of which each is written by a statement of its own. -/
def Program.twoLanes : Program where
  identifiers := [{
    name := "a"
    origin := ⟨.unknown, .origin⟩
    type := .int
    declared := true
    extents := [none, some 2]
    patterns := [
      ⟨⟨.unknown, .origin⟩, [.var "i", .fixed 0], none, .constant none (.int 1)⟩,
      ⟨⟨.unknown, .origin⟩, [.var "i", .fixed 1], none,
        .element none 0 [.iterator none (.ofDim 0), .constant none (.int 0)]⟩] }]

namespace Schedule

theorem aligned_twoLanes : ∃ m s, (Model.build .twoLanes).execute.1 = .ok m ∧
    (synthesize m ⟨true, true⟩).execute.1 = .ok s ∧ s.isSteady 0 = true ∧ s.isSteady 1 = true ∧
    s.offset 0 = s.offset 1 ∧ s.period 0 = s.period 1 ∧
    ∃ st flow p step, m.statements[1]? = some st ∧ s.Aligned 1 st flow p ∧ p.theta? [3, 1] = .ok step ∧
      0 ≤ step - 3 * s.length ∧ step - 3 * s.length < s.length := by
  have hrun : (Outcome.passes (Model.build .twoLanes).execute.1 fun m =>
      Outcome.passes (synthesize m ⟨true, true⟩).execute.1 fun s =>
        decide (s.isSteady 0 = true ∧ s.isSteady 1 = true ∧ s.offset 1 = 0 ∧ s.period 1 = 1) &&
          (m.statements[0]?).any fun st => (m.statements[1]?).any fun st' =>
            decide (st.array = st'.array ∧ st'.flow = some 0 ∧ st'.domain.locals = 0 ∧ 2 = st'.domain.dims ∧
              ∀ c ∈ st'.domain.cons, c.holds [3, 1] = true)) = true := by
    decide +kernel
  obtain ⟨m, hm, hrun⟩ := Outcome.exists_of_passes hrun
  obtain ⟨s, hs, hrun⟩ := Outcome.exists_of_passes hrun
  obtain ⟨hsteady, hrun⟩ := (Bool.and_eq_true _ _).mp hrun
  obtain ⟨hfirst, hsecond, hoffset, hperiod⟩ := of_decide_eq_true hsteady
  obtain ⟨st, hst, hrun⟩ := (Option.any_eq_true _ _).mp hrun
  obtain ⟨st', hst', hrun⟩ := (Option.any_eq_true _ _).mp hrun
  obtain ⟨harray, hflow, hlocals, hdims, hholds⟩ := of_decide_eq_true hrun
  obtain ⟨hequal, haligned⟩ := aligned_of_synthesize (Model.built_of_build hm).proper hs
  obtain ⟨hoffsets, hperiods⟩ := hequal 0 1 st st' hst hst' harray hfirst hsecond
  obtain ⟨st'', flow, p, hst'', hp, h⟩ := haligned 1 hsecond
  obtain rfl := Option.some.inj (hst'.symm.trans hst'')
  obtain rfl := Option.some.inj (hflow.symm.trans h.flows)
  have hincludes : st'.domain.Includes [3, 1] :=
    (PointSet.includes_iff_holds hlocals).mpr ⟨hdims, hholds⟩
  have hinside : s.InPeriod 1 0 3 [3, 1] := by
    rw [InPeriod, hoffset, hperiod]
    decide
  obtain ⟨step, hstep, hlow, hhigh, -⟩ := h.leading 3 [3, 1] hincludes hinside
  exact ⟨m, s, hm, hs, hfirst, hsecond, hoffsets, hperiods, st', 0, p, step, hst', h, hstep, hlow, hhigh⟩

end Schedule

end StreamLoom
