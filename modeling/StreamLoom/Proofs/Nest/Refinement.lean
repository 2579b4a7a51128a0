import StreamLoom.Proofs.Nest.Phase
import StreamLoom.Proofs.Schedule.Causality

/-!
# Loop nests execute the schedule

The nest of the prologue executes the points whose time starts with `0`, and the nest of the steady
state, in the period that is the `k`-th to follow, those whose time starts with `1 + k`. What one nest
executes is in order, and so is everything together, since the nests are executed in the order of these
first components.
-/

namespace StreamLoom

attribute [local instance] Arithmetic.exact

open StreamLoom.System (Solves Over)

namespace Nest

/-! ### Runs -/

/-- A point of a statement, moved by some periods along the flow of the statement. -/
def translated (s : Schedule) (k : Int) (i : Nat) (x : List Int) : List Int :=
  x.modify (s.flow i) (· + k * s.period i)

namespace Nests

/-- The points that the nest of the prologue executes, with their statements. -/
def early (nests : Nests) : List (Nat × List Int) :=
  (Node.executeAll [] nests.prologue).visits.map fun v => (v.statement, v.index.tail)

/-- The points that the nest of the steady state executes in a period. -/
def late (nests : Nests) (s : Schedule) (k : Nat) : List (Nat × List Int) :=
  (Node.executeAll [] nests.steady).visits.map fun v =>
    (v.statement, translated s k v.statement v.index.tail)

/-- The points that are executed by the prologue and the periods that follow it. -/
def executed (nests : Nests) (s : Schedule) : Nat → List (Nat × List Int)
  | 0 => nests.early
  | k + 1 => nests.executed s k ++ nests.late s k

end Nests

/-! ### Phases of a schedule -/

variable {s : Schedule} {m : Model}

theorem looped_prologue (hs : s.Consistent m) (hm : m.Proper) : Looped s.prologue := by
  refine ⟨fun i p hp => ?_, hs.earlyOrder⟩
  obtain ⟨st, hst, hearly⟩ := hs.early i p hp
  obtain ⟨hlocals, hregular, -⟩ := hm st (List.mem_of_getElem? hst)
  refine ⟨?_, ?_, ?_, hearly.scale⟩
  · rw [hearly.domain]
    exact Schedule.regular_earlyDomain s hregular
  · rw [hearly.domain, Schedule.locals_earlyDomain, hlocals]
  · rw [Placement.dims, hearly.domain, Schedule.dims_earlyDomain]
    exact hearly.carrier

theorem looped_steady (hs : s.Consistent m) (hm : m.Proper) : Looped s.steady := by
  refine ⟨fun i p hp => ?_, hs.lateOrder⟩
  obtain ⟨st, flow, hst, hlate⟩ := hs.late i p hp
  obtain ⟨hlocals, hregular, -⟩ := hm st (List.mem_of_getElem? hst)
  refine ⟨?_, ?_, ?_, hlate.scale⟩
  · rw [hlate.domain]
    exact Schedule.regular_firstPeriod hregular _ _ _
  · rw [hlate.domain]
    exact hlocals
  · intro c hc
    rw [hlate.carrier] at hc
    cases hc
    rw [hlate.dims_eq]
    exact hlate.inside

/-- Some points are those whose time has a given first component, in the order of their times. -/
structure Covers (s : Schedule) (m : Model) (points : List (Nat × List Int)) (P : Int → Prop) : Prop where
  mem : ∀ i x, (i, x) ∈ points ↔ ∃ first rest, s.Occurs m i x (first :: rest) ∧ P first
  ordered : points.Pairwise fun a b => ∃ t u, s.Occurs m a.1 a.2 t ∧ s.Occurs m b.1 b.2 u ∧ t < u

theorem Covers.append {points points' : List (Nat × List Int)} {P Q : Int → Prop}
    (h : Covers s m points P) (h' : Covers s m points' Q) (hbetween : ∀ a b, P a → Q b → a < b) :
    Covers s m (points ++ points') fun a => P a ∨ Q a := by
  constructor
  · intro i x
    rw [List.mem_append, h.mem, h'.mem]
    constructor
    · rintro (⟨first, rest, hoccurs, hfirst⟩ | ⟨first, rest, hoccurs, hfirst⟩)
      · exact ⟨first, rest, hoccurs, .inl hfirst⟩
      · exact ⟨first, rest, hoccurs, .inr hfirst⟩
    · rintro ⟨first, rest, hoccurs, hfirst | hfirst⟩
      · exact .inl ⟨first, rest, hoccurs, hfirst⟩
      · exact .inr ⟨first, rest, hoccurs, hfirst⟩
  · refine List.pairwise_append.mpr ⟨h.ordered, h'.ordered, ?_⟩
    rintro ⟨i, x⟩ hx ⟨j, y⟩ hy
    obtain ⟨first, rest, hoccurs, hfirst⟩ := (h.mem i x).mp hx
    obtain ⟨first', rest', hoccurs', hfirst'⟩ := (h'.mem j y).mp hy
    refine ⟨_, _, hoccurs, hoccurs', ?_⟩
    rw [List.cons_lt_cons_iff]
    exact .inl (hbetween first first' hfirst hfirst')

/-! ### Points of a phase -/

/-- The first component of a time tells the phase and the period of a point. -/
theorem occurs_cases {i : Nat} {x : List Int} {first : Int} {rest : List Int}
    (h : s.Occurs m i x (first :: rest)) :
    (first = 0 ∧ ∃ st p, m.statements[i]? = some st ∧ s.prologue.placement? i = some p ∧
      s.Early i st p ∧ x.length = st.dims ∧ Solves (valuation x) (s.earlyDomain st i).cons) ∨
    ∃ st p flow, m.statements[i]? = some st ∧ s.steady.placement? i = some p ∧ s.Late i st flow p ∧
      x.length = st.dims ∧ Solves (valuation x) st.domain.cons ∧ s.offset i ≤ valuation x flow ∧
      first = 1 + (valuation x flow - s.offset i) / s.period i := by
  generalize htime : first :: rest = t at h
  cases h with
  | early hst hp hearly hlength hx =>
    obtain ⟨rfl, -⟩ := List.cons.inj htime
    exact .inl ⟨rfl, _, _, hst, hp, hearly, hlength, hx⟩
  | late hst hp hlate hlength hx hfrom =>
    obtain ⟨rfl, -⟩ := List.cons.inj htime
    refine .inr ⟨_, _, _, hst, hp, hlate, hlength, hx, hfrom, ?_⟩
    rw [(hlate.ediv_length _).1]

private theorem one_le_of_late {i : Nat} {st : Statement} {p : Placement} {flow : Nat}
    (h : s.Late i st flow p) {x : Nat → Int} (hfrom : s.offset i ≤ x flow) :
    1 ≤ 1 + (x flow - s.offset i) / s.period i := by
  have hnonneg := Int.ediv_nonneg (show 0 ≤ x flow - s.offset i by omega) h.period.le
  omega

theorem covers_early (hs : s.Consistent m) {nests : Nests}
    (h : (Node.executeAll [] nests.prologue).Makes () (VisitsPhase m s.prologue) (Precedes s.prologue)) :
    Covers s m nests.early (· = 0) := by
  have hoccurs : ∀ v, VisitsPhase m s.prologue v → ∃ p, s.prologue.placement? v.statement = some p ∧
      s.Occurs m v.statement v.index.tail (s.earlyTime p v.at) := by
    rintro v ⟨i, p, hp, y, rfl, hlength, hy⟩
    obtain ⟨st, hst, hearly⟩ := hs.early i p hp
    rw [Placement.dims, hearly.domain, Schedule.dims_earlyDomain] at hlength
    rw [hearly.domain] at hy
    exact ⟨p, hp, .early hst hp hearly hlength hy⟩
  constructor
  · intro i x
    simp only [Nests.early, List.mem_map, Prod.mk.injEq, h.visits]
    constructor
    · rintro ⟨v, hv, rfl, rfl⟩
      obtain ⟨p, -, hv⟩ := hoccurs v hv
      exact ⟨0, _, hv, rfl⟩
    · rintro ⟨first, rest, hx, rfl⟩
      rcases occurs_cases hx with ⟨-, st, p, -, hp, hearly, hlength, hx⟩ |
        ⟨st, p, flow, -, -, hlate, -, -, hfrom, hfirst⟩
      · refine ⟨⟨i, m.nameOf i, 0 :: x⟩, ⟨i, p, hp, x, rfl, ?_, ?_⟩, rfl, rfl⟩
        · rw [Placement.dims, hearly.domain, Schedule.dims_earlyDomain, hlength]
        · rwa [hearly.domain]
      · have hle := one_le_of_late hlate hfrom
        omega
  · refine List.pairwise_map.mpr (h.ordered.imp_of_mem fun {v w} hv hw hlt => ?_)
    obtain ⟨p, hp, hv⟩ := hoccurs v ((h.visits v).mp hv)
    obtain ⟨q, hq, hw⟩ := hoccurs w ((h.visits w).mp hw)
    exact ⟨_, _, hv, hw, (Schedule.earlyTime_lt_earlyTime_iff hs hp hq _ _).mpr (hlt p q hp hq)⟩

theorem valuation_translated {k : Int} {i : Nat} {x : List Int} (hflow : s.flow i < x.length) :
    valuation (translated s k i x) =
      Function.update (valuation x) (s.flow i) (valuation x (s.flow i) + k * s.period i) :=
  valuation_modify hflow _

theorem translated_neg_translated (k : Int) (i : Nat) (x : List Int) :
    translated s k i (translated s (-k) i x) = x := by
  rw [translated, translated, List.modify_modify_eq]
  have hid : (fun t : Int => t + k * s.period i) ∘ (fun t => t + -k * s.period i) = id := by
    funext t
    simp
  rw [hid, List.modify_id]

/-- What one period executes of a statement is what the first period does, moved. -/
theorem late_translated_iff {i : Nat} {st : Statement} {p : Placement} {flow : Nat}
    (hlate : s.Late i st flow p) (hflow : s.flow i = flow) {x : List Int} (hlength : x.length = st.dims)
    (k : Int) (hk : 0 ≤ k) :
    Solves (valuation x) p.domain.cons ↔
      Solves (valuation (translated s k i x)) st.domain.cons ∧
      s.offset i ≤ valuation (translated s k i x) flow ∧
      (valuation (translated s k i x) flow - s.offset i) / s.period i = k := by
  subst hflow
  have hperiod := hlate.period
  have hquotient : ∀ t : Int, (t + k * s.period i - s.offset i) / s.period i = k ↔
      s.offset i ≤ t ∧ t < s.offset i + s.period i := by
    intro t
    rw [Int.ediv_eq_iff_of_pos hperiod]
    constructor <;> intro <;> constructor <;> linarith
  rw [hlate.domain, Schedule.solves_firstPeriod hlate.inside,
    valuation_translated (by rw [hlength]; exact hlate.inside), Function.update_self, hquotient]
  have hmoves := mul_nonneg hk hperiod.le
  constructor
  · rintro ⟨hx, hfrom, hto⟩
    exact ⟨hlate.periodic _ hx _ (by omega), by omega, hfrom, hto⟩
  · rintro ⟨hx, -, hfrom, hto⟩
    have hback := hlate.periodic _ hx (valuation x (s.flow i)) hfrom
    rw [Function.update_idem, Function.update_eq_self] at hback
    exact ⟨hback, hfrom, hto⟩

private theorem timeAt_translated {i : Nat} {st : Statement} {p : Placement} {flow : Nat}
    (hlate : s.Late i st flow p) (hflow : s.flow i = flow) {x : List Int} (hlength : x.length = st.dims)
    (k : Int) :
    p.timeAt (valuation (translated s k i x)) =
      (p.thetaAt (valuation x) + k * s.length) :: (p.order : Int) :: p.inner.map (valuation x) := by
  subst hflow
  have htheta := hlate.thetaAt_update (valuation x) (-k)
  rw [neg_mul, sub_neg_eq_add, neg_mul, sub_neg_eq_add] at htheta
  rw [valuation_translated (by rw [hlength]; exact hlate.inside), Placement.timeAt, htheta,
    hlate.map_inner_update]

theorem covers_late (hs : s.Consistent m) {nests : Nests}
    (h : (Node.executeAll [] nests.steady).Makes () (VisitsPhase m s.steady) (Precedes s.steady)) (k : Nat) :
    Covers s m (nests.late s k) (· = 1 + k) := by
  have hoccurs : ∀ v, VisitsPhase m s.steady v → ∃ p, s.steady.placement? v.statement = some p ∧
      s.Occurs m v.statement (translated s k v.statement v.index.tail)
        (s.lateTime p (valuation (translated s k v.statement v.index.tail))) ∧
      p.thetaAt (valuation (translated s k v.statement v.index.tail)) / s.length = k ∧
      p.timeAt (valuation (translated s k v.statement v.index.tail)) =
        (p.thetaAt v.at + k * s.length) :: (p.order : Int) :: p.inner.map v.at := by
    rintro v ⟨i, p, hp, y, rfl, hlength, hy⟩
    obtain ⟨st, flow, hst, hlate⟩ := hs.late i p hp
    have hflow : s.flow i = flow := by rw [hs.flows i st hst, hlate.flows, Option.getD_some]
    rw [hlate.dims_eq] at hlength
    obtain ⟨hx, hfrom, hk⟩ := (late_translated_iff hlate hflow hlength k (by omega)).mp hy
    refine ⟨p, hp, .late hst hp hlate ?_ hx hfrom, ?_, timeAt_translated hlate hflow hlength k⟩
    · rw [translated, List.length_modify]
      exact hlength
    · exact (hlate.ediv_length _).1.trans hk
  constructor
  · intro i x
    simp only [Nests.late, List.mem_map, Prod.mk.injEq, h.visits]
    constructor
    · rintro ⟨v, hv, rfl, rfl⟩
      obtain ⟨p, -, hv, hk, -⟩ := hoccurs v hv
      refine ⟨_, _, hv, ?_⟩
      rw [hk]
    · rintro ⟨first, rest, hx, hfirst⟩
      rcases occurs_cases hx with ⟨rfl, -⟩ |
        ⟨st, p, flow, hst, hp, hlate, hlength, hx, hfrom, hquotient⟩
      · omega
      have hflow : s.flow i = flow := by rw [hs.flows i st hst, hlate.flows, Option.getD_some]
      have hlength' : (translated s (-k) i x).length = st.dims := by
        rw [translated, List.length_modify]
        exact hlength
      refine ⟨⟨i, m.nameOf i, 0 :: translated s (-k) i x⟩,
        ⟨i, p, hp, translated s (-k) i x, rfl, hlength'.trans hlate.dims_eq.symm, ?_⟩, rfl,
        translated_neg_translated _ _ _⟩
      refine (late_translated_iff hlate hflow hlength' k (by omega)).mpr ?_
      rw [translated_neg_translated]
      exact ⟨hx, hfrom, by omega⟩
  · refine List.pairwise_map.mpr (h.ordered.imp_of_mem fun {v w} hv hw hlt => ?_)
    obtain ⟨p, hp, hv, -, hv'⟩ := hoccurs v ((h.visits v).mp hv)
    obtain ⟨q, hq, hw, -, hw'⟩ := hoccurs w ((h.visits w).mp hw)
    refine ⟨_, _, hv, hw, (Schedule.lateTime_lt_lateTime_iff hs hp hq _ _).mpr ?_⟩
    rw [hv', hw']
    have hbefore := hlt p q hp hq
    rw [Placement.timeAt, Placement.timeAt, List.cons_lt_cons_iff] at hbefore
    rw [List.cons_lt_cons_iff]
    rcases hbefore with hbefore | ⟨heq, hbefore⟩
    · exact .inl (by omega)
    · exact .inr ⟨by omega, hbefore⟩

/-! ### Everything together -/

/-- A run of the nests covers the prologue and as many periods as there are. -/
theorem covers_executed (hs : s.Consistent m) {nests : Nests}
    (hearly : (Node.executeAll [] nests.prologue).Makes () (VisitsPhase m s.prologue)
      (Precedes s.prologue))
    (hlate : (Node.executeAll [] nests.steady).Makes () (VisitsPhase m s.steady) (Precedes s.steady))
    (n : Nat) : Covers s m (nests.executed s n) fun first => 0 ≤ first ∧ first ≤ n := by
  induction n with
  | zero =>
    have hcovers := covers_early hs hearly
    have hzero : (fun first : Int => 0 ≤ first ∧ first ≤ (0 : Nat)) = (· = 0) := by
      funext first
      simp only [eq_iff_iff]
      omega
    rw [hzero]
    exact hcovers
  | succ n ih =>
    have hcovers := ih.append (covers_late hs hlate n) (by rintro a b ⟨-, ha⟩ rfl; omega)
    have hnext : (fun first : Int => 0 ≤ first ∧ first ≤ (n + 1 : Nat)) =
        fun first : Int => (0 ≤ first ∧ first ≤ n) ∨ first = 1 + n := by
      funext first
      simp only [eq_iff_iff]
      omega
    rw [hnext]
    exact hcovers

theorem nonneg_of_occurs {i : Nat} {x : List Int} {first : Int} {rest : List Int}
    (h : s.Occurs m i x (first :: rest)) : 0 ≤ first := by
  rcases occurs_cases h with ⟨rfl, -⟩ | ⟨st, p, flow, -, -, hlate, -, -, hfrom, rfl⟩
  · exact le_rfl
  · have hle := one_le_of_late hlate hfrom
    omega

/-- The nests of a schedule that was synthesized for a built model execute what the schedule says. No
execution fails. After some periods, the points that have been executed are those whose time begins with
at most the number of these periods, each of them once, and in the order of their times. -/
theorem executed_iff_time {program : Program} {scheduling : ScheduleOptions} {options : NestOptions}
    {nests : Nests} (hm : (Model.build program).execute.1 = .ok m)
    (hs : (Schedule.synthesize m scheduling).execute.1 = .ok s)
    (hnests : (generate m s options).execute.1 = .ok nests) (n : Nat) :
    (Node.executeAll [] nests.prologue).result = .ok () ∧
    (Node.executeAll [] nests.steady).result = .ok () ∧
    (∀ i x, (i, x) ∈ nests.executed s n ↔
      ∃ first rest, s.time? i x = .ok (some (first :: rest)) ∧ first ≤ n) ∧
    (nests.executed s n).Nodup ∧
    (nests.executed s n).Pairwise fun a b => ∃ t u, s.time? a.1 a.2 = .ok (some t) ∧
      s.time? b.1 b.2 = .ok (some u) ∧ t < u := by
  have hproper := (Model.built_of_build hm).proper
  have hconsistent := Schedule.consistent_of_synthesize hproper hs
  obtain ⟨prologue, hprologue, hrest⟩ := Stage.yields_bind (Stage.yields_of_execute hnests)
  obtain ⟨steady, hsteady, hrest⟩ := Stage.yields_bind hrest
  obtain ⟨-, -, hrest⟩ := Stage.yields_bind hrest
  obtain ⟨-, -, hrest⟩ := Stage.yields_bind hrest
  obtain rfl := Stage.yields_pure hrest
  have hearly := execute_ofPhase (looped_prologue hconsistent hproper) (Stage.yields_ofExcept hprologue)
  have hlate := execute_ofPhase (looped_steady hconsistent hproper) (Stage.yields_ofExcept hsteady)
  have hcovers : Covers s m (Nests.executed ⟨prologue, steady⟩ s n) fun first => 0 ≤ first ∧ first ≤ n :=
    covers_executed hconsistent hearly hlate n
  have htime {i : Nat} {x t : List Int} : s.time? i x = .ok (some t) ↔ s.Occurs m i x t :=
    Schedule.time?_eq_some_iff hconsistent hproper
  simp only [htime]
  refine ⟨hearly.result, hlate.result, fun i x => ?_, ?_, hcovers.ordered⟩
  · rw [hcovers.mem]
    constructor
    · rintro ⟨first, rest, hoccurs, -, hfirst⟩
      exact ⟨first, rest, hoccurs, hfirst⟩
    · rintro ⟨first, rest, hoccurs, hfirst⟩
      exact ⟨first, rest, hoccurs, nonneg_of_occurs hoccurs, hfirst⟩
  · refine hcovers.ordered.imp ?_
    rintro a b ⟨t, u, ht, hu, hlt⟩ rfl
    rw [← htime] at ht hu
    obtain rfl := Option.some.inj (Except.ok.inj (ht.symm.trans hu))
    exact lt_irrefl t hlt

/-- In the stream of ones, the prologue and the first two periods execute elements in their order. -/
theorem executed_iff_time_ones : ∃ m s nests, (Model.build .ones).execute.1 = .ok m ∧
    (Schedule.synthesize m ⟨true, true⟩).execute.1 = .ok s ∧
    (generate m s ⟨false⟩).execute.1 = .ok nests ∧ nests.executed s 2 ≠ [] ∧
    (nests.executed s 2).Pairwise fun a b => ∃ t u, s.time? a.1 a.2 = .ok (some t) ∧
      s.time? b.1 b.2 = .ok (some u) ∧ t < u := by
  have hrun : (Outcome.passes (Model.build .ones).execute.1 fun m =>
      Outcome.passes (Schedule.synthesize m ⟨true, true⟩).execute.1 fun s =>
        Outcome.passes (generate m s ⟨false⟩).execute.1 fun nests =>
          decide (nests.executed s 2 ≠ [])) = true := by
    decide +kernel
  obtain ⟨m, hm, hrun⟩ := Outcome.exists_of_passes hrun
  obtain ⟨s, hs, hrun⟩ := Outcome.exists_of_passes hrun
  obtain ⟨nests, hnests, hrun⟩ := Outcome.exists_of_passes hrun
  exact ⟨m, s, nests, hm, hs, hnests, of_decide_eq_true hrun,
    (executed_iff_time hm hs hnests 2).2.2.2.2⟩

end Nest

end StreamLoom
