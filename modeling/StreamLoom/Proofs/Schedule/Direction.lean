import Mathlib.Algebra.Order.BigOperators.Group.Finset
import StreamLoom.Proofs.PointSet.Recession
import StreamLoom.Proofs.Program.Extents
import StreamLoom.Proofs.Relation.Mapping
import StreamLoom.Proofs.Schedule.Synthesis

/-!
# Directions of dependencies

Along a direction in which a dependency never ends, only flow indices move, as everything else is finite.
When the consumer moves it belongs to the steady state, and its balance with the producer says how fast
one index moves with the other. The scales make up for exactly that, so that writes do not get ahead of
their reads.
-/

namespace StreamLoom

attribute [local instance] Arithmetic.exact

open StreamLoom.System (Solves Over)

/-! ### Movement along a ray -/

theorem Affine.exists_bound (a : Affine) (size : Nat → Int) :
    ∃ bound : Int, ∀ x : Nat → Int, (∀ i, i < a.vars → |x i| ≤ size i) → |a.valueAt x| ≤ bound := by
  refine ⟨|a.const| + ∑ i ∈ Finset.range a.vars, |a.coeff i| * size i, fun x hx => ?_⟩
  rw [valueAt, linear_eq_sum]
  refine (abs_add_le _ _).trans (add_le_add le_rfl ?_)
  refine (Finset.abs_sum_le_sum_abs _ _).trans (Finset.sum_le_sum fun i hi => ?_)
  rw [abs_mul]
  exact mul_le_mul_of_nonneg_left (hx i (Finset.mem_range.mp hi)) (abs_nonneg _)

/-- Along a flow the points of a statement never turn back, and nothing else moves. -/
theorem Statement.Housed.moves {arrays : List DataArray} {st : Statement} {array : DataArray}
    (hst : st.Housed arrays array) (hsingle : Extent.Single array.extents) {x dx : Nat → Int}
    (h : ∀ k : Int, 0 ≤ k → Solves (fun i => x i + k * dx i) st.domain.cons) {i : Nat} (hi : i < st.dims) :
    0 ≤ dx i ∧ (st.flow ≠ some i → dx i = 0) := by
  have hrank : i < array.rank := by rwa [Statement.dims, hst.dims] at hi
  have hbox : ∀ k : Int, 0 ≤ k → 0 ≤ x i + k * dx i ∧
      ∀ size, array.extents[i]? = some (some size) → x i + k * dx i < size := by
    intro k hk
    obtain ⟨hlow, hhigh⟩ :=
      PointSet.solves_box.mp (hst.inside _ (h k hk)) i _ (List.getElem?_eq_getElem hrank)
    refine ⟨hlow, fun size hsize => hhigh size ?_⟩
    exact Option.some.inj ((List.getElem?_eq_getElem hrank).symm.trans hsize)
  refine ⟨nonneg_of_ray fun k hk => (hbox k hk).1, fun hne => ?_⟩
  rw [hst.flow] at hne
  obtain ⟨size, hsize⟩ := array.exists_extent hsingle hrank hne
  exact eq_zero_of_ray fun k hk => ⟨(hbox k hk).1, ((hbox k hk).2 size hsize).le⟩

/-- How far the variables of an index can be from zero at a point. -/
def Frame.reach (f : Frame) (x : Nat → Int) (i : Nat) : Int :=
  if i < f.dims then |x i|
  else |(f.reductions.getD (i - f.dims) (0, 0)).1| + |(f.reductions.getD (i - f.dims) (0, 0)).2|

theorem Frame.Ranges.abs_le_reach {f : Frame} {r : Nat → Int} (h : f.Ranges r) (x : Nat → Int) {i : Nat}
    (hi : i < f.vars) : |Relation.joined f.dims x r i| ≤ f.reach x i := by
  unfold Frame.reach Relation.joined
  split
  · exact le_rfl
  · rename_i hdims
    have hlt : i - f.dims < f.reductions.length := by
      rw [Frame.vars] at hi
      omega
    obtain ⟨range, hget⟩ : ∃ range, f.reductions[i - f.dims]? = some range :=
      ⟨_, List.getElem?_eq_getElem hlt⟩
    obtain ⟨hlow, hhigh⟩ := h (i - f.dims) range.1 range.2 hget
    rw [List.getD_eq_getElem?_getD, hget, Option.getD_some]
    rw [abs_le]
    constructor
    · linarith [neg_abs_le range.1, abs_nonneg range.2]
    · linarith [le_abs_self range.2, abs_nonneg range.1]

/-- What is known of a direction in which a dependency never ends. -/
structure Dependency.Moves (d : Dependency) (producer consumer : Statement) (dx dy : Nat → Int) : Prop where
  forward : ∀ i, i < consumer.dims → 0 ≤ dx i
  flows : ∀ i, i < consumer.dims → consumer.flow ≠ some i → dx i = 0
  flows' : ∀ o, o < producer.dims → producer.flow ≠ some o → dy o = 0
  still : (∀ i, i < consumer.dims → dx i = 0) → ∀ o, o < producer.dims → dy o = 0

namespace Model.Built

variable {m : Model} {d : Dependency} {producer consumer : Statement} {x y dx dy : Nat → Int}

/-- From a point, a dependency only leads to so many places. -/
theorem exists_reach (hm : m.Built) (hd : d ∈ m.dependencies) (hjoins : d.Joins m producer consumer)
    (x : Nat → Int) {o : Nat} (ho : o < producer.dims) :
    ∃ bound : Int, ∀ y : Nat → Int, d.relation.Links x y → |y o| ≤ bound := by
  obtain ⟨consumer', read, producer', hconsumer, hread, hproducer, harray, -, hrelation, -⟩ :=
    (mem_dependencies hm).mp hd
  obtain rfl := Option.some.inj (hjoins.reads.symm.trans hconsumer)
  obtain rfl := Option.some.inj (hjoins.writes.symm.trans hproducer)
  obtain ⟨array, hhoused⟩ := hm.housed producer (List.mem_of_getElem? hproducer)
  obtain ⟨home, hhoused'⟩ := hm.housed consumer (List.mem_of_getElem? hconsumer)
  have hreads := Computation.reads_of_modelled consumer.computation hhoused'.modelled read hread
  obtain ⟨-, -, hlinks⟩ := links_composed hreads hhoused harray
  obtain ⟨f, array', pattern, hdomain, hget, hlength, hvars, hrelate⟩ := hreads
  have hregular : f.domain.Regular := by
    rw [hdomain]
    exact hhoused'.regular
  have hsame : array = array' := by
    have hhome := hhoused.home
    rw [harray, hget] at hhome
    exact (Option.some.inj hhome).symm
  have ho' : o < pattern.length := by
    rw [hlength, ← hsame, ← hhoused.dims]
    exact ho
  obtain ⟨bound, hbound⟩ := pattern[o].exists_bound (f.reach x)
  refine ⟨bound, fun y hxy => ?_⟩
  rw [hrelation, hlinks, hrelate, Access.links_relate hregular hvars] at hxy
  obtain ⟨⟨-, r, hranges, hindex⟩, -⟩ := hxy
  rw [hindex o ho']
  apply hbound
  intro i hi
  apply hranges.abs_le_reach x
  rwa [hvars _ (List.getElem_mem ho')] at hi

/-- A direction of a dependency that leaves the consumer where it is leaves the producer there as well. -/
theorem eq_zero_of_still (hm : m.Built) (hd : d ∈ m.dependencies) (hjoins : d.Joins m producer consumer)
    (hxy : d.relation.Links x y) (hdirection : d.relation.flat.Links dx dy)
    (hstill : ∀ i, i < consumer.dims → dx i = 0) {o : Nat} (ho : o < producer.dims) : dy o = 0 := by
  obtain ⟨bound, hbound⟩ := hm.exists_reach hd hjoins x ho
  refine eq_zero_of_ray (a := y o) (l := -bound) (u := bound) fun k hk => abs_le.mp ?_
  apply hbound fun o => y o + k * dy o
  refine (Relation.links_congr (fun i hi => ?_) fun _ _ => rfl).mp (Relation.links_ray hxy hdirection hk)
  rw [hstill i (by rwa [← hjoins.inputs]), mul_zero, add_zero]

theorem moves (hm : m.Built) (hsingle : ∀ array ∈ m.arrays, Extent.Single array.extents)
    (hd : d ∈ m.dependencies) (hjoins : d.Joins m producer consumer) (hxy : d.relation.Links x y)
    (hdirection : d.relation.flat.Links dx dy) : d.Moves producer consumer dx dy := by
  obtain ⟨array, hwriter⟩ := hm.housed producer (List.mem_of_getElem? hjoins.writes)
  obtain ⟨array', hreader⟩ := hm.housed consumer (List.mem_of_getElem? hjoins.reads)
  have hreads : ∀ k : Int, 0 ≤ k → Solves (fun i => x i + k * dx i) consumer.domain.cons :=
    fun k hk => hjoins.consumes (Relation.links_ray hxy hdirection hk)
  have hwrites : ∀ k : Int, 0 ≤ k → Solves (fun o => y o + k * dy o) producer.domain.cons :=
    fun k hk => hjoins.produces (Relation.links_ray hxy hdirection hk)
  have hconsumer {i : Nat} (hi : i < consumer.dims) :=
    hreader.moves (hsingle _ (List.mem_of_getElem? hreader.home)) hreads hi
  have hproducer {o : Nat} (ho : o < producer.dims) :=
    hwriter.moves (hsingle _ (List.mem_of_getElem? hwriter.home)) hwrites ho
  exact {
    forward := fun i hi => (hconsumer hi).1
    flows := fun i hi => (hconsumer hi).2
    flows' := fun o ho => (hproducer ho).2
    still := fun hstill o ho => hm.eq_zero_of_still hd hjoins hxy hdirection hstill ho }

end Model.Built

/-! ### Balanced directions -/

namespace Relation

variable {m : Relation} {x y dx dy : Nat → Int}

/-- Along the rows of a mapping, an output moves as its row says. -/
theorem moves_of_mapping (hm : m.Regular) {g : Mapping} (hg : m.mapping = .ok g)
    (hxy : m.Links x y) (hdirection : m.flat.Links dx dy) {input output : Nat}
    (houtput : output < m.outputs) (hothers : ∀ i, i < m.inputs → i ≠ input → dx i = 0) :
    dy output = g.coefficient input output * dx input := by
  obtain ⟨hlength, hrows⟩ := row_of_mapping hm hg
  have hget : g.rows[output]? = some (g.rows.get ⟨output, hlength ▸ houtput⟩) :=
    List.getElem?_eq_getElem (hlength ▸ houtput)
  generalize g.rows.get ⟨output, hlength ▸ houtput⟩ = row at hget
  obtain ⟨hvars, hvalue⟩ := hrows x y hxy output row hget
  obtain ⟨-, hnext⟩ := hrows _ _ (links_ray hxy hdirection (k := 1) (by decide)) output row hget
  rw [Affine.valueAt_add_mul, hvalue] at hnext
  have hrow : row.flat.valueAt dx = row.coeff input * dx input := by
    have honly : row.flat.valueAt dx = row.flat.valueAt (Function.update (fun _ => 0) input (dx input)) := by
      apply Affine.valueAt_congr_of_lt (a := row.flat) hvars.le
      intro i hi
      by_cases heq : i = input
      · rw [heq, Function.update_self]
      · rw [Function.update_of_ne heq]
        exact hothers i hi heq
    rw [honly, Affine.valueAt_update, Affine.flat_valueAt_zero, zero_add, sub_zero]
    rfl
  rw [Mapping.coefficient, hget]
  show dy output = row.coeff input * dx input
  linarith

theorem moves_of_follows (hm : m.Regular) {a : Int} (hxy : m.Links x y) (hdirection : m.flat.Links dx dy)
    {input output : Nat} (hinput : input < m.inputs) (houtput : output < m.outputs)
    (h : m.follows input (m.inputs + output) a = true) : dy output = a * dx input := by
  have hdims : m.inputs + output < m.dims := Nat.add_lt_add_left houtput _
  have hinside : input < m.dims := lt_of_lt_of_le hinput (Nat.le_add_right _ _)
  have hvars : ((Affine.var m.dims (m.inputs + output)).sub ((Affine.var m.dims input).scale a)).vars =
      m.pairs.dims := by
    rw [Affine.vars_sub, Affine.vars_var, Affine.vars_scale, Affine.vars_var, min_self]
    rfl
  unfold follows at h
  split at h
  · rename_i interval hbound
    obtain ⟨lo, hi, hends⟩ : ∃ lo hi, interval.ends? = some (lo, hi) := by
      unfold Interval.isFinite at h
      unfold Interval.ends?
      cases hl : interval.lower <;> cases hu : interval.upper <;> simp_all [Extended.isFinite]
    have hray : ∀ k : Int, 0 ≤ k → lo ≤ (y output - a * x input) + k * (dy output - a * dx input) ∧
        (y output - a * x input) + k * (dy output - a * dx input) ≤ hi := by
      intro k hk
      obtain ⟨interval', hbound', hcontains⟩ := PointSet.bound_of_has (regular_pairs.mpr hm) hvars
        (links_iff_has.mp (links_ray hxy hdirection hk))
      obtain rfl := Option.some.inj (hbound.symm.trans hbound')
      rw [Interval.contains_of_ends? hends, Affine.valueAt_sub (by simp), Affine.valueAt_scale,
        Affine.valueAt_var hdims, Affine.valueAt_var hinside, joined_add, joined_of_lt hinput] at hcontains
      have hsplit : y output + k * dy output - a * (x input + k * dx input) =
          y output - a * x input + k * (dy output - a * dx input) := by ring
      rwa [Int.cast_id, hsplit] at hcontains
    linarith [eq_zero_of_ray hray]
  · cases h

end Relation

/-- The flow ratio of a dependency says how fast its producer moves with its consumer. -/
theorem Rates.moves_of_flowRatio {d : Dependency} (hd : d.relation.Regular) {x y dx dy : Nat → Int}
    (hxy : d.relation.Links x y) (hdirection : d.relation.flat.Links dx dy) {sink source : Nat}
    (hsink : sink < d.relation.inputs) (hsource : source < d.relation.outputs)
    (hothers : ∀ i, i < d.relation.inputs → i ≠ sink → dx i = 0) {ratio : Int}
    (h : flowRatio d sink source = some ratio) : dy source = ratio * dx sink := by
  unfold flowRatio at h
  split at h
  · rename_i g hg
    cases h
    exact Relation.moves_of_mapping hd hg hxy hdirection hsource hothers
  · obtain ⟨c, -, hcandidate⟩ := List.exists_of_findSome?_eq_some h
    obtain ⟨-, hfollows⟩ := Option.filter_eq_some_iff.mp hcandidate
    exact Relation.moves_of_follows hd hxy hdirection hsink hsource hfollows

namespace Schedule

variable {m : Model} {lows : List (Option Int)} {rates : Rates Int} {scales : List Int}

/-- What is found before any statement is placed. -/
structure Scaled (m : Model) (lows : List (Option Int)) (rates : Rates Int) (scales : List Int) : Prop where
  steady : steadyLows m = .ok lows
  rated : Rates.ofModel m (lows.map (·.isSome)) = .ok rates
  scaled : scalesOf m rates = .ok scales

namespace Scaled

variable {d : Dependency} {producer consumer : Statement} {x y dx dy : Nat → Int}

/-- A statement whose points go on along its flow belongs to the steady state. -/
theorem steady_of_moves (h : Scaled m lows rates scales) (hm : m.Proper) {i : Nat} {st : Statement}
    (hst : m.statements[i]? = some st) {flow : Nat} (hflow : st.flow = some flow)
    (hray : ∀ k : Int, 0 ≤ k → Solves (fun i => x i + k * dx i) st.domain.cons) (hpos : 0 < dx flow) :
    (lows.map (·.isSome)).getD i false = true := by
  obtain ⟨hlocals, hregular, hinside⟩ := hm st (List.mem_of_getElem? hst)
  obtain ⟨low, hget, hlow⟩ := Outcome.getElem?_of_forall₂ (Outcome.forall₂_of_mapM h.steady) hst
  simp only [hflow] at hlow
  cases low with
  | some v =>
    rw [List.getD_eq_getElem?_getD, List.getElem?_map, hget]
    rfl
  | none =>
    obtain ⟨upper, hbounded⟩ := bounded_of_steadyLow hregular hlocals (hinside flow hflow) hlow
    have hfalls : 0 ≤ -dx flow := by
      apply nonneg_of_ray (a := -x flow) (l := -upper)
      intro k hk
      have := hbounded _ (hray k hk)
      rw [mul_neg]
      omega
    omega

/-- A steady statement reads a stream at a multiple of its own flow index. -/
theorem exists_flowRatio (h : Scaled m lows rates scales) (hd : d ∈ m.dependencies)
    (hjoins : d.Joins m producer consumer) {source sink : Nat} (hsource : producer.flow = some source)
    (hsink : consumer.flow = some sink) (hsteady : (lows.map (·.isSome)).getD d.consumer false = true) :
    ∃ ratio, Rates.flowRatio d sink source = some ratio ∧ 0 ≤ ratio := by
  have hrates := h.rated
  simp only [Rates.ofModel] at hrates
  obtain ⟨balances, hbalances, -⟩ := Outcome.bind_eq_ok hrates
  obtain ⟨k, hk⟩ := List.getElem?_of_mem hd
  obtain ⟨b, -, hbalance⟩ := Outcome.getElem?_of_forall₂ (Outcome.forall₂_of_mapM hbalances) hk
  unfold Rates.balance at hbalance
  rw [hjoins.writes, hjoins.reads] at hbalance
  simp only [hsource, hsink, hsteady, Bool.not_true, Bool.false_eq_true, if_false] at hbalance
  cases hratio : Rates.flowRatio d sink source with
  | none =>
    rw [hratio] at hbalance
    cases hbalance
  | some ratio =>
    rw [hratio] at hbalance
    simp only at hbalance
    split at hbalance
    · cases hbalance
    · rename_i hnonneg
      exact ⟨ratio, rfl, not_lt.mp hnonneg⟩

/-- The scales of balanced streams make up for how fast one moves with the other. -/
theorem scale_eq (h : Scaled m lows rates scales) (hd : d ∈ m.dependencies)
    (hjoins : d.Joins m producer consumer) {source sink : Nat} (hsource : producer.flow = some source)
    (hsink : consumer.flow = some sink) (hsteady : (lows.map (·.isSome)).getD d.consumer false = true)
    {ratio : Int} (hratio : Rates.flowRatio d sink source = some ratio) (hpos : 0 < ratio) :
    scales.getD d.producer 1 * ratio = scales.getD d.consumer 1 := by
  have hadvances : d.Advances m (lows.map (·.isSome)) producer.array consumer.array ratio :=
    ⟨hsteady, ⟨source, sink, producer, consumer, hjoins.writes, hsource, rfl, hjoins.reads, hsink, rfl, hratio⟩,
      hpos⟩
  have hbalances : m.Balances (lows.map (·.isSome)) producer.array consumer.array ratio :=
    ⟨d, hd, hadvances⟩
  obtain ⟨r, r', hr, hr', heq⟩ := Rates.balance_met h.rated hbalances
  have hproducer := scale_mul_rate h.rated h.scaled hjoins.writes hr
  have hconsumer := scale_mul_rate h.rated h.scaled hjoins.reads hr'
  apply Int.eq_of_mul_eq_mul_right (rate_pos h.rated hr').1.ne'
  rw [hconsumer, mul_assoc, ← heq, hproducer]

end Scaled

section

variable {c : Selection} {optimize grouped : Bool} {st : Statement} {i : Nat}

private theorem carriedAt_entry {flow : Nat} (hflow : st.flow = some flow) (z : Nat → Int) :
    carriedAt (c.entry scales optimize grouped st i).carrier (c.entry scales optimize grouped st i).scale z =
      scales.getD i 1 * z flow := by
  simp [Selection.entry, entryOf, carrierOf, Statement.isInfinite, hflow, carriedAt]

private theorem carriedAt_entry_of_still (hflow : st.flow = none) {z : Nat → Int}
    (hstill : ∀ i, i < st.dims → z i = 0) :
    carriedAt (c.entry scales optimize grouped st i).carrier (c.entry scales optimize grouped st i).scale z =
      0 := by
  simp only [Selection.entry, entryOf, carrierOf, Statement.isInfinite, hflow]
  split
  · rename_i hdims
    have hpos : 0 < st.dims := by simpa using (Bool.and_eq_true_iff.mp hdims).2
    simp [carriedAt, hstill 0 hpos]
  · rfl

end

/-- Between two streams, the producer moves no further than the consumer once both are scaled. -/
private theorem Scaled.flow_le (h : Scaled m lows rates scales) (hm : m.Built) {d : Dependency}
    (hd : d ∈ m.dependencies) {producer consumer : Statement} (hjoins : d.Joins m producer consumer)
    {x y dx dy : Nat → Int} (hxy : d.relation.Links x y) (hdirection : d.relation.flat.Links dx dy)
    (hmoves : d.Moves producer consumer dx dy) {source sink : Nat} (hsource : producer.flow = some source)
    (hsink : consumer.flow = some sink) :
    scales.getD d.producer 1 * dy source ≤ scales.getD d.consumer 1 * dx sink := by
  have hwritten := (hm.proper producer (List.mem_of_getElem? hjoins.writes)).2.2 source hsource
  have hread := (hm.proper consumer (List.mem_of_getElem? hjoins.reads)).2.2 sink hsink
  have hothers : ∀ i, i < consumer.dims → i ≠ sink → dx i = 0 := by
    intro i hi hne
    apply hmoves.flows i hi
    rw [hsink]
    exact fun heq => hne (Option.some.inj heq).symm
  cases (hmoves.forward sink hread).eq_or_lt with
  | inl hzero =>
    have hall : ∀ i, i < consumer.dims → dx i = 0 := by
      intro i hi
      by_cases heq : i = sink
      · rw [heq, ← hzero]
      · exact hothers i hi heq
    rw [hmoves.still hall source hwritten, ← hzero, mul_zero, mul_zero]
  | inr hpos =>
    have hsteady := h.steady_of_moves hm.proper hjoins.reads hsink
      (fun k hk => hjoins.consumes (Relation.links_ray hxy hdirection hk)) hpos
    obtain ⟨ratio, hratio, hnonneg⟩ := h.exists_flowRatio hd hjoins hsource hsink hsteady
    have hflow : dy source = ratio * dx sink := by
      apply Rates.moves_of_flowRatio hjoins.regular hxy hdirection _ _ _ hratio
      · rwa [hjoins.inputs]
      · rwa [hjoins.outputs]
      · rwa [hjoins.inputs]
    rw [hflow]
    cases hnonneg.eq_or_lt with
    | inl hconstant =>
      rw [← hconstant, zero_mul, mul_zero]
      exact mul_nonneg (scale_pos h.rated h.scaled _).le hpos.le
    | inr hratioPos => rw [← mul_assoc, h.scale_eq hd hjoins hsource hsink hsteady hratio hratioPos]

/-- Along a direction of a dependency, writes do not get ahead of their reads. -/
theorem Scaled.carriedAt_le (h : Scaled m lows rates scales) (hm : m.Built)
    (hsingle : ∀ array ∈ m.arrays, Extent.Single array.extents) {d : Dependency}
    (hd : d ∈ m.dependencies) {producer consumer : Statement} (hjoins : d.Joins m producer consumer)
    {x y dx dy : Nat → Int} (hxy : d.relation.Links x y) (hdirection : d.relation.flat.Links dx dy)
    (c : Selection) (optimize grouped : Bool) :
    carriedAt (c.entry scales optimize grouped producer d.producer).carrier
        (c.entry scales optimize grouped producer d.producer).scale dy ≤
      carriedAt (c.entry scales optimize grouped consumer d.consumer).carrier
        (c.entry scales optimize grouped consumer d.consumer).scale dx := by
  have hmoves := hm.moves hsingle hd hjoins hxy hdirection
  have hreads (hsink : consumer.flow = none) : ∀ i, i < consumer.dims → dx i = 0 :=
    fun i hi => hmoves.flows i hi (by rw [hsink]; nofun)
  have hwrites (hsource : producer.flow = none) : ∀ o, o < producer.dims → dy o = 0 :=
    fun o ho => hmoves.flows' o ho (by rw [hsource]; nofun)
  cases hsource : producer.flow with
  | none =>
    rw [carriedAt_entry_of_still hsource (hwrites hsource)]
    cases hsink : consumer.flow with
    | none => rw [carriedAt_entry_of_still hsink (hreads hsink)]
    | some sink =>
      have hinside := (hm.proper consumer (List.mem_of_getElem? hjoins.reads)).2.2 sink hsink
      rw [carriedAt_entry hsink]
      exact mul_nonneg (scale_pos h.rated h.scaled _).le (hmoves.forward sink hinside)
  | some source =>
    have hinside := (hm.proper producer (List.mem_of_getElem? hjoins.writes)).2.2 source hsource
    rw [carriedAt_entry hsource]
    cases hsink : consumer.flow with
    | none =>
      rw [carriedAt_entry_of_still hsink (hreads hsink), hmoves.still (hreads hsink) source hinside, mul_zero]
    | some sink =>
      rw [carriedAt_entry hsink]
      exact h.flow_le hm hd hjoins hxy hdirection hmoves hsource hsink

end Schedule

end StreamLoom
