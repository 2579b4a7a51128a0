import StreamLoom.Proofs.Schedule.Time

/-!
# Causality

A value is computed before it is read. Both phases respect the dependencies on their own, and what
remains is a dependency from one phase to the other. The prologue precedes the steady state, so that
only a consumer in the prologue could read too early from the steady state. There is none: the steady
state starts when everything that the prologue reads has been computed.
-/

namespace StreamLoom

attribute [local instance] Arithmetic.exact

open StreamLoom.System (Solves Over)

/-- A stream of which the first element is one, and every other is the one before it. -/
def Program.ones : Program where
  identifiers := [{
    name := "a"
    origin := ⟨.unknown, .origin⟩
    type := .int
    declared := true
    extents := [none]
    patterns := [
      ⟨⟨.unknown, .origin⟩, [.fixed 0], none, .constant none (.int 1)⟩,
      ⟨⟨.unknown, .origin⟩, [.var "i"],
        some (.apply none .greater [.iterator none (.ofDim 0), .constant none (.int 0)]),
        .element none 0 [.iterator none ⟨0, 1, -1⟩]⟩] }]

namespace Schedule

variable {s : Schedule} {m : Model} {d : Dependency} {producer consumer : Statement}

/-- No point of the prologue depends on a point of the steady state. -/
private theorem not_late_of_early (hs : s.Consistent m) (hrespects : s.Respects m)
    (hd : d ∈ m.dependencies) (hjoins : d.Joins m producer consumer) {x y : Nat → Int}
    (hxy : d.relation.Links x y) (hx : Solves x (s.earlyDomain consumer d.consumer).cons)
    {q : Placement} (hq : s.steady.placement? d.producer = some q) {flow : Nat}
    (hlate : s.Late d.producer producer flow q) : ¬ s.offset d.producer ≤ y flow := by
  rw [← hlate.thetaAt_nonneg_iff, not_le]
  cases hp : s.steady.placement? d.consumer with
  | none =>
    have hsteady : s.isSteady d.consumer = false := by simp [isSteady, Phase.isPresent, hp]
    exact hrespects.outside d hd producer consumer hjoins x y hxy hsteady q hq
  | some p =>
    obtain ⟨st, flow', hst, hconsumer⟩ := hs.late d.consumer p hp
    rw [hjoins.reads] at hst
    obtain rfl := Option.some.inj hst
    have hflow : s.flow d.consumer = flow' := by
      rw [hs.flows _ _ hjoins.reads, hconsumer.flows, Option.getD_some]
    -- A consumer that the steady state executes as well has not reached it at this point.
    have hbefore : p.thetaAt x < 0 := by
      rw [← not_le, hconsumer.thetaAt_nonneg_iff]
      exact fun hfrom => hconsumer.not_early hflow (isSteady_of_placement hp) hfrom hx
    have hlt := hrespects.late d hd producer consumer hjoins x y hxy q p hq hp
    rw [Placement.timeAt, Placement.timeAt, List.cons_lt_cons_iff] at hlt
    rcases hlt with hlt | ⟨heq, -⟩ <;> omega

/-- The times of two points respect a dependency between them. -/
theorem lt_of_occurs (hs : s.Consistent m) (hrespects : s.Respects m) (hd : d ∈ m.dependencies)
    (hjoins : d.Joins m producer consumer) {x y tx ty : List Int}
    (hxy : d.relation.Links (valuation x) (valuation y)) (hx : s.Occurs m d.consumer x tx)
    (hy : s.Occurs m d.producer y ty) : ty < tx := by
  rcases hx with ⟨hst, hp, hearly, -, hx⟩ | ⟨hst, hp, hlate, -, -, hfrom⟩ <;>
    rw [hjoins.reads] at hst <;>
    obtain rfl := Option.some.inj hst <;>
    rcases hy with ⟨hst', hq, hearly', -, hy⟩ | ⟨hst', hq, hlate', -, -, hfrom'⟩ <;>
    rw [hjoins.writes] at hst' <;>
    obtain rfl := Option.some.inj hst'
  · rw [earlyTime_lt_earlyTime_iff hs hq hp]
    exact hrespects.early d hd producer consumer hjoins _ _ hxy (PointSet.has_of_solves hx)
      (PointSet.has_of_solves hy) _ _ hq hp
  · exact absurd hfrom' (not_late_of_early hs hrespects hd hjoins hxy hx hq hlate')
  · exact earlyTime_lt_lateTime hlate _ hfrom
  · rw [lateTime_lt_lateTime_iff hs hq hp]
    exact hrespects.late d hd producer consumer hjoins _ _ hxy _ _ hq hp

/-- In a schedule that was synthesized for a built model, both points of a dependency have a time, and
the producer comes first. -/
theorem producer_before_consumer {program : Program} {options : ScheduleOptions}
    (hm : (Model.build program).execute.1 = .ok m) (hs : (synthesize m options).execute.1 = .ok s)
    (hd : d ∈ m.dependencies) {x y : List Int} (hxy : d.relation.Relates x y) :
    ∃ tx ty, s.time? d.consumer x = .ok (some tx) ∧ s.time? d.producer y = .ok (some ty) ∧ ty < tx := by
  have hbuilt := Model.built_of_build hm
  obtain ⟨producer, consumer, hjoins⟩ := hbuilt.joins hd
  obtain ⟨hlength, hlength', hlinks⟩ := (Relation.relates_iff hjoins.regular).mp hxy
  have hconsistent := consistent_of_synthesize hbuilt.proper hs
  obtain ⟨tx, hx⟩ := exists_occurs hconsistent hjoins.reads (hlength.trans hjoins.inputs)
    (hjoins.consumes hlinks)
  obtain ⟨ty, hy⟩ := exists_occurs hconsistent hjoins.writes (hlength'.trans hjoins.outputs)
    (hjoins.produces hlinks)
  exact ⟨tx, ty, (time?_eq_some_iff hconsistent hbuilt.proper).mpr hx,
    (time?_eq_some_iff hconsistent hbuilt.proper).mpr hy,
    lt_of_occurs hconsistent (respects_of_synthesize hbuilt.proper hs) hd hjoins hlinks hx hy⟩

/-- In the stream of ones, the second element waits for the first. -/
theorem one_before_next : ∃ m s d, (Model.build .ones).execute.1 = .ok m ∧
    (synthesize m ⟨true, true⟩).execute.1 = .ok s ∧ d ∈ m.dependencies ∧ d.relation.Relates [2] [1] ∧
    ∃ tx ty, s.time? d.consumer [2] = .ok (some tx) ∧ s.time? d.producer [1] = .ok (some ty) ∧
      ty < tx := by
  have hrun : (Outcome.passes (Model.build .ones).execute.1 fun m =>
      Outcome.passes (synthesize m ⟨true, true⟩).execute.1 fun _ => m.dependencies.any fun d =>
        decide (1 = d.relation.inputs ∧ 1 = d.relation.outputs ∧ 0 = d.relation.locals ∧
          ∀ c ∈ d.relation.cons, c.holds [2, 1] = true)) = true := by
    decide +kernel
  obtain ⟨m, hm, hrun⟩ := Outcome.exists_of_passes hrun
  obtain ⟨s, hs, hrun⟩ := Outcome.exists_of_passes hrun
  obtain ⟨d, hd, hrun⟩ := List.any_eq_true.mp hrun
  obtain ⟨hinputs, houtputs, hlocals, hholds⟩ := of_decide_eq_true hrun
  have hxy : d.relation.Relates [2] [1] := ⟨hinputs, houtputs, [], hlocals, hholds⟩
  exact ⟨m, s, d, hm, hs, hd, hxy, producer_before_consumer hm hs hd hxy⟩

end Schedule

end StreamLoom
