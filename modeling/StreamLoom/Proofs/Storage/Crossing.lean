import StreamLoom.Proofs.Schedule.Alignment
import StreamLoom.Proofs.Storage.Buffers
import StreamLoom.Proofs.Storage.Window

/-!
# Dependencies within a period

A buffer that does not outlive a period is read in the period in which it was written. The test for it
looks only for elements that were written in an earlier period, for all periods at once. That none is written
in a later one is not tested, as it would then be written after it is read.
-/

namespace StreamLoom

attribute [local instance] Arithmetic.exact

open StreamLoom.System (Solves Over)

/-! ### Steady points -/

namespace Schedule

variable {s : Schedule} {m : Model} {i : Nat} {st : Statement} {k : Int} {x : List Int}

/-- A point of the steady state, in one of its periods. -/
structure SteadyIn (s : Schedule) (i : Nat) (k : Int) (x : List Int) : Prop where
  steady : s.isSteady i = true
  nonneg : 0 ≤ k
  inside : s.InPeriod i (s.flow i) k x

theorem Consistent.exists_late (hs : s.Consistent m) (hst : m.statements[i]? = some st)
    (hsteady : s.isSteady i = true) :
    ∃ p, s.steady.placement? i = some p ∧ s.Late i st (s.flow i) p := by
  obtain ⟨p, hp⟩ := Option.isSome_iff_exists.mp hsteady
  obtain ⟨st', flow, hst', hlate⟩ := hs.late i p hp
  rw [hst] at hst'
  cases hst'
  have hflow : s.flow i = flow := by
    rw [hs.flows i st hst, hlate.flows, Option.getD_some]
  rw [hflow]
  exact ⟨p, hp, hlate⟩

/-- The combined time of a point counts its period, after the prologue. -/
theorem steadyIn_iff_occurs (hs : s.Consistent m) (hst : m.statements[i]? = some st)
    (hlength : x.length = st.dims) (hx : Solves (valuation x) st.domain.cons) (hk : 0 ≤ k) :
    s.SteadyIn i k x ↔ ∃ rest, s.Occurs m i x ((1 + k) :: rest) := by
  constructor
  · intro h
    obtain ⟨p, hp, hlate⟩ := hs.exists_late hst h.steady
    have hfrom : s.offset i ≤ valuation x (s.flow i) := by
      have hperiods := mul_nonneg hk hlate.period.le
      have hfirst := h.inside.1
      omega
    have hoccurs := Occurs.late hst hp hlate hlength hx hfrom
    rw [lateTime, (hlate.thetaAt_of_inPeriod h.inside).1] at hoccurs
    exact ⟨_, hoccurs⟩
  · intro h
    obtain ⟨rest, h⟩ := h
    generalize ht : (1 + k) :: rest = t at h
    cases h with
    | early _ _ _ _ _ =>
      -- The prologue has a number of its own.
      have hhead := (List.cons.inj ht).1
      omega
    | @late st' p flow hst' hp hlate _ _ _ =>
      have hflow : s.flow i = flow := by
        rw [hs.flows i st' hst', hlate.flows, Option.getD_some]
      have hhead := (List.cons.inj ht).1
      refine ⟨isSteady_of_placement hp, hk, ?_⟩
      rw [hflow, inPeriod_iff hlate, ← (hlate.ediv_length (valuation x)).1]
      omega

end Schedule

/-! ### The test for crossings -/

namespace Requirement

variable {s : Schedule} {d : Dependency} {x y : Nat → Int} {k : Int}

/-- The coordinates of a pair of points, followed by a period. -/
private def dated (d : Dependency) (x y : Nat → Int) (k : Int) : Nat → Int :=
  Relation.joined d.relation.dims (Relation.joined d.relation.inputs x y) fun _ => k

private theorem covers_dated (hd : d.relation.Regular) (hxy : d.relation.Links x y) (k : Int) :
    Covers (d.relation.dims + 1) (dated d x y k) (d.relation.pairs.product (.full "k" 1)) := by
  refine ⟨PointSet.regular_product, rfl, ?_⟩
  have hfull : (PointSet.full "k" 1).Regular := by
    intro c hc
    cases hc
  rw [PointSet.has_product (Relation.regular_pairs.mpr hd) hfull]
  constructor
  · refine (PointSet.has_congr fun i hi => ?_).mpr (Relation.links_iff_has.mp hxy)
    exact Relation.joined_of_lt hi _ _
  · apply PointSet.has_of_solves
    show Solves _ []
    simp

/-- The first flow index of a statement in the period, as a form over a pair and a period. -/
private def startOf (s : Schedule) (d : Dependency) (i : Nat) : Affine :=
  ((Affine.var (d.relation.dims + 1) d.relation.dims).scale (s.period i)).plus (s.offset i)

/-- The pairs of which the read is in the period. -/
private def reads (s : Schedule) (d : Dependency) : PointSet :=
  (d.relation.pairs.product (.full "k" 1)).constrain
    [.atLeast (.var (d.relation.dims + 1) d.relation.dims),
      .le (startOf s d d.consumer) (.var (d.relation.dims + 1) (s.flow d.consumer)),
      .lt (.var (d.relation.dims + 1) (s.flow d.consumer))
        ((startOf s d d.consumer).plus (s.period d.consumer))]

private theorem crossesPeriod_eq (s : Schedule) (d : Dependency) : crossesPeriod s d =
    if !s.isSteady d.consumer then false
    else if (reads s d).isEmpty then false
    else if !s.isSteady d.producer then true
    else !((reads s d).constrain [.lt
      (.var (d.relation.dims + 1) (d.relation.inputs + s.flow d.producer))
      (startOf s d d.producer)]).isEmpty := rfl

@[simp] private theorem vars_startOf (i : Nat) : (startOf s d i).vars = d.relation.dims + 1 := by
  simp [startOf]

private theorem dated_period : dated d x y k d.relation.dims = k :=
  Relation.joined_add d.relation.dims 0 _ _

private theorem valueAt_startOf (i : Nat) :
    (startOf s d i).valueAt (dated d x y k) = s.offset i + k * s.period i := by
  rw [startOf, Affine.valueAt_plus, Affine.valueAt_scale, Affine.valueAt_var (Nat.lt_succ_self _),
    dated_period]
  simp [mul_comm, add_comm]

private theorem valueAt_read (hflow : s.flow d.consumer < d.relation.inputs) :
    (Affine.var (d.relation.dims + 1) (s.flow d.consumer)).valueAt (dated d x y k) =
      x (s.flow d.consumer) := by
  have hlt : s.flow d.consumer < d.relation.dims := by
    simp only [Relation.dims]
    omega
  rw [Affine.valueAt_var (by omega), dated, Relation.joined_of_lt hlt, Relation.joined_of_lt hflow]

private theorem valueAt_written (hflow : s.flow d.producer < d.relation.outputs) :
    (Affine.var (d.relation.dims + 1) (d.relation.inputs + s.flow d.producer)).valueAt (dated d x y k) =
      y (s.flow d.producer) := by
  have hlt : d.relation.inputs + s.flow d.producer < d.relation.dims := by
    simp only [Relation.dims]
    omega
  rw [Affine.valueAt_var (by omega), dated, Relation.joined_of_lt hlt, Relation.joined_add]

/-- The test looks at every pair of which the read is in a period. -/
private theorem covers_reads (hd : d.relation.Regular) (hflow : s.flow d.consumer < d.relation.inputs)
    (hxy : d.relation.Links x y) (hk : 0 ≤ k)
    (hfirst : s.offset d.consumer + k * s.period d.consumer ≤ x (s.flow d.consumer))
    (hlast : x (s.flow d.consumer) < s.offset d.consumer + (k + 1) * s.period d.consumer) :
    Covers (d.relation.dims + 1) (dated d x y k) (reads s d) := by
  refine (covers_dated hd hxy k).constrain ?_ ?_
  · intro c hc
    simp only [List.mem_cons, List.not_mem_nil, or_false] at hc
    rcases hc with rfl | rfl | rfl
    · show (Affine.var _ _).vars = _
      simp
    · simp
    · simp
  · rw [System.solves_cons, System.solves_cons, System.solves_cons, Constraint.admits_atLeast,
      Constraint.admits_le (by simp), Constraint.admits_lt (by simp), Affine.valueAt_plus,
      valueAt_read hflow, valueAt_startOf, Affine.valueAt_var (Nat.lt_succ_self _), dated_period]
    rw [add_mul, one_mul, ← add_assoc] at hlast
    exact ⟨hk, hfirst, hlast, by simp⟩

/-- Where no period is crossed, what is read in a period was written in no earlier one. -/
theorem written_of_not_crosses (hd : d.relation.Regular) (hcrosses : crossesPeriod s d = false)
    (hsteady : s.isSteady d.consumer = true) (hflow : s.flow d.consumer < d.relation.inputs)
    (hflow' : s.isSteady d.producer = true → s.flow d.producer < d.relation.outputs)
    (hxy : d.relation.Links x y) (hk : 0 ≤ k)
    (hfirst : s.offset d.consumer + k * s.period d.consumer ≤ x (s.flow d.consumer))
    (hlast : x (s.flow d.consumer) < s.offset d.consumer + (k + 1) * s.period d.consumer) :
    s.isSteady d.producer = true ∧
      s.offset d.producer + k * s.period d.producer ≤ y (s.flow d.producer) := by
  have hreads := covers_reads hd hflow hxy hk hfirst hlast
  have hsome := PointSet.isEmpty_of_has hreads.regular hreads.has
  cases hproducer : s.isSteady d.producer with
  | false => simp [crossesPeriod_eq, hsteady, hsome, hproducer] at hcrosses
  | true =>
    refine ⟨rfl, ?_⟩
    by_contra hearlier
    have hlt : (Affine.var (d.relation.dims + 1) (d.relation.inputs + s.flow d.producer)).valueAt
        (dated d x y k) < (startOf s d d.producer).valueAt (dated d x y k) := by
      rw [valueAt_written (hflow' hproducer), valueAt_startOf]
      exact not_le.mp hearlier
    have hpair := hreads.lt (by simp) (by simp) hlt
    have hsome' := PointSet.isEmpty_of_has hpair.regular hpair.has
    simp [crossesPeriod_eq, hsteady, hsome, hproducer, hsome'] at hcrosses

end Requirement

/-! ### Buffers -/

namespace Allocation

open Schedule

variable {m : Model} {s : Schedule} {a : Allocation} {d : Dependency} {array : DataArray}

/-- A buffer that does not outlive a period is read in the period in which it was written. -/
theorem written_in_period {program : Program} {options : ScheduleOptions}
    (hm : (Model.build program).execute.1 = .ok m) (hs : (synthesize m options).execute.1 = .ok s)
    (ha : (allocate m s).execute.1 = .ok a) (hd : d ∈ m.dependencies)
    (harray : a.model.arrays[d.array]? = some array) (houtlives : array.buffer.outlives = false)
    {x y : List Int} (hxy : d.relation.Relates x y) {k : Int} (hx : s.SteadyIn d.consumer k x) :
    s.SteadyIn d.producer k y ∧
      (∃ rest, s.time? d.consumer x = .ok (some ((1 + k) :: rest))) ∧
      ∃ rest, s.time? d.producer y = .ok (some ((1 + k) :: rest)) := by
  have hbuilt := Model.built_of_build hm
  have hconsistent := consistent_of_synthesize hbuilt.proper hs
  have hrespects := respects_of_synthesize hbuilt.proper hs
  obtain ⟨producer, consumer, hjoins⟩ := hbuilt.joins hd
  obtain ⟨hlength, hlength', hlinks⟩ := (Relation.relates_iff hjoins.regular).mp hxy
  have hcrosses : Requirement.crossesPeriod s d = false := by
    obtain ⟨array', harray'⟩ := exists_array ha harray
    obtain ⟨slices, outlives, -, hallocated, hrequires⟩ := exists_buffer ha harray'
    rw [harray] at hallocated
    cases hallocated
    apply (hrequires d hd rfl).2
    rw [← houtlives, buffer]
    split <;> rfl
  have hinside {i : Nat} {st : Statement} (hst : m.statements[i]? = some st)
      (hsteady : s.isSteady i = true) : s.flow i < st.dims := by
    obtain ⟨p, -, hlate⟩ := hconsistent.exists_late hst hsteady
    exact hlate.inside
  obtain ⟨hproducer, hfrom⟩ := Requirement.written_of_not_crosses hjoins.regular hcrosses hx.steady
    (by rw [hjoins.inputs]; exact hinside hjoins.reads hx.steady)
    (fun h => by rw [hjoins.outputs]; exact hinside hjoins.writes h) hlinks hx.nonneg hx.inside.1
    hx.inside.2
  obtain ⟨q, hq, hlate⟩ := hconsistent.exists_late hjoins.writes hproducer
  -- The period of the element is not before that of the read, and causality puts it no later.
  obtain ⟨k', hk'⟩ : ∃ k', (valuation y (s.flow d.producer) - s.offset d.producer) / s.period d.producer =
      k' := ⟨_, rfl⟩
  have hle : k ≤ k' := by
    rw [← hk', Int.le_ediv_iff_mul_le hlate.period]
    omega
  have hnonneg : 0 ≤ k' := le_trans hx.nonneg hle
  have hy : s.SteadyIn d.producer k' y := ⟨hproducer, hnonneg, (inPeriod_iff hlate).mpr hk'⟩
  obtain ⟨rest, hread⟩ := (steadyIn_iff_occurs hconsistent hjoins.reads (hlength.trans hjoins.inputs)
    (hjoins.consumes hlinks) hx.nonneg).mp hx
  obtain ⟨rest', hwritten⟩ := (steadyIn_iff_occurs hconsistent hjoins.writes (hlength'.trans hjoins.outputs)
    (hjoins.produces hlinks) hnonneg).mp hy
  have hlt := lt_of_occurs hconsistent hrespects hd hjoins hlinks hread hwritten
  have hge : k' ≤ k := by
    rw [List.cons_lt_cons_iff] at hlt
    rcases hlt with hlt | ⟨heq, -⟩
    · omega
    · omega
  obtain rfl : k' = k := le_antisymm hge hle
  exact ⟨hy, ⟨rest, (time?_eq_some_iff hconsistent hbuilt.proper).mpr hread⟩,
    ⟨rest', (time?_eq_some_iff hconsistent hbuilt.proper).mpr hwritten⟩⟩

/-- The second lane reads what the first one wrote in the same period. -/
theorem written_in_period_twoLanes : ∃ m s a d array, (Model.build .twoLanes).execute.1 = .ok m ∧
    (synthesize m ⟨true, true⟩).execute.1 = .ok s ∧ (allocate m s).execute.1 = .ok a ∧
    d ∈ m.dependencies ∧ a.model.arrays[d.array]? = some array ∧ array.buffer.outlives = false ∧
    d.relation.Relates [3, 1] [3, 0] ∧ s.SteadyIn d.consumer 3 [3, 1] ∧
    s.SteadyIn d.producer 3 [3, 0] ∧
    (∃ rest, s.time? d.consumer [3, 1] = .ok (some ((1 + 3) :: rest))) ∧
    ∃ rest, s.time? d.producer [3, 0] = .ok (some ((1 + 3) :: rest)) := by
  have hrun : (Outcome.passes (Model.build .twoLanes).execute.1 fun m =>
      Outcome.passes (synthesize m ⟨true, true⟩).execute.1 fun s =>
      Outcome.passes (allocate m s).execute.1 fun a => m.dependencies.any fun d =>
        decide (2 = d.relation.inputs ∧ 2 = d.relation.outputs ∧ 0 = d.relation.locals ∧
          ∀ c ∈ d.relation.cons, c.holds [3, 1, 3, 0] = true) &&
        decide (s.isSteady d.consumer = true ∧ s.flow d.consumer = 0 ∧ s.offset d.consumer = 0 ∧
          s.period d.consumer = 1) &&
        (a.model.arrays[d.array]?).any fun array => !array.buffer.outlives) = true := by
    decide +kernel
  obtain ⟨m, hm, hrun⟩ := Outcome.exists_of_passes hrun
  obtain ⟨s, hs, hrun⟩ := Outcome.exists_of_passes hrun
  obtain ⟨a, ha, hrun⟩ := Outcome.exists_of_passes hrun
  obtain ⟨d, hd, hrun⟩ := List.any_eq_true.mp hrun
  simp only [Bool.and_eq_true, decide_eq_true_eq, Option.any_eq_true, Bool.not_eq_true'] at hrun
  obtain ⟨⟨⟨hinputs, houtputs, hlocals, hholds⟩, hsteady, hflow, hoffset, hperiod⟩, array, harray,
    houtlives⟩ := hrun
  have hxy : d.relation.Relates [3, 1] [3, 0] := ⟨hinputs, houtputs, [], hlocals, hholds⟩
  have hx : s.SteadyIn d.consumer 3 [3, 1] := by
    refine ⟨hsteady, by decide, ?_⟩
    rw [InPeriod, hflow, hoffset, hperiod]
    decide
  exact ⟨m, s, a, d, array, hm, hs, ha, hd, harray, houtlives, hxy, hx,
    written_in_period hm hs ha hd harray houtlives hxy hx⟩

end Allocation

end StreamLoom
