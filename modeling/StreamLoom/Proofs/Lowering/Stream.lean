import StreamLoom.Proofs.Lowering.Bounds
import StreamLoom.Proofs.Lowering.Delivery
import StreamLoom.Proofs.Lowering.Reads
import StreamLoom.Proofs.Lowering.Window

/-!
# Streams pass through windows

A period computes the flow indices that its window shows, and the prologue those before. For a statement that
runs in the prologue only this need not be so: the windows follow the statements of the steady state, and an
element ahead of them is beyond the end of the window of the prologue. What comes from an input is
never ahead, since a stream is copied without end.
-/

namespace StreamLoom

attribute [local instance] Arithmetic.exact

open StreamLoom.System (Solves Over)
open StreamLoom.Nest (Visit translated)

namespace Lowering

variable {config : Config} {library : Library} {files : List SourceFile} {m : Model} {c : Compilation}
  {s : Schedule} {k : Int} {steady : Bool} {v : Visit}

/-! ### The points of a visit -/

structure Executes (m : Model) (s : Schedule) (k : Int) (steady : Bool) (v : Visit) (st : Statement)
    (x : List Int) : Prop where
  statement : m.statements[v.statement]? = some st
  index : v.index = 0 :: x
  length : x.length = st.dims
  domain : Solves (valuation (translated s k v.statement x)) st.domain.cons
  prologue : steady = false → k = 0

theorem exists_executes_early (hs : s.Consistent m) (h : Belongs m s (k, false, v)) :
    ∃ st x, Executes m s k false v st x ∧
      (s.isSteady v.statement = true → valuation x (s.flow v.statement) < s.offset v.statement) := by
  obtain ⟨rfl, i, p, hp, x, rfl, hlength, hx⟩ := h
  obtain ⟨st, hst, hearly⟩ := hs.early i p hp
  rw [hearly.dims_eq] at hlength
  rw [hearly.domain, Schedule.earlyDomain] at hx
  by_cases hsteady : s.isSteady i = true
  · obtain ⟨q, hq⟩ := Option.isSome_iff_exists.mp hsteady
    obtain ⟨st', flow, hst', hlate⟩ := hs.late i q hq
    obtain rfl := Option.some.inj (hst.symm.trans hst')
    have hflow : s.flow i = flow := by rw [hs.flows i st hst, hlate.flows, Option.getD_some]
    rw [if_pos hsteady, hflow, Schedule.solves_before hlate.inside] at hx
    refine ⟨st, x, ⟨hst, rfl, hlength, ?_, fun _ => rfl⟩, fun _ => ?_⟩
    · rw [translated_zero]
      exact hx.1
    · rw [hflow]
      exact hx.2
  · rw [if_neg hsteady] at hx
    refine ⟨st, x, ⟨hst, rfl, hlength, ?_, fun _ => rfl⟩, fun h => absurd h hsteady⟩
    rw [translated_zero]
    exact hx

/-- A period executes as many flow indices as the statement has in a period, after those of the periods
before. -/
theorem exists_executes_late (hs : s.Consistent m) (h : Belongs m s (k, true, v)) :
    ∃ st x, Executes m s k true v st x ∧ s.isSteady v.statement = true ∧ 0 < s.period v.statement ∧
      s.offset v.statement + k * s.period v.statement ≤
        valuation (translated s k v.statement x) (s.flow v.statement) ∧
      valuation (translated s k v.statement x) (s.flow v.statement) <
        s.offset v.statement + k * s.period v.statement + s.period v.statement := by
  obtain ⟨hk, i, p, hp, x, rfl, hlength, hx⟩ := h
  obtain ⟨st, flow, hst, hlate⟩ := hs.late i p hp
  have hflow : s.flow i = flow := by rw [hs.flows i st hst, hlate.flows, Option.getD_some]
  rw [hlate.dims_eq] at hlength
  obtain ⟨hdomain, hfrom, hquotient⟩ := (Nest.late_translated_iff hlate hflow hlength k hk).mp hx
  rw [Int.ediv_eq_iff_of_pos hlate.period] at hquotient
  rw [hflow]
  refine ⟨st, x, ⟨hst, rfl, hlength, hdomain, nofun⟩, Schedule.isSteady_of_placement hp, hlate.period, ?_, ?_⟩
  · linarith
  · linarith

/-! ### Statements of a stream -/

/-- The array of a statement before its storage was allocated, and what the statement has to do with the
buffer that it was given. -/
structure Feeds (m : Model) (s : Schedule) (array : DataArray) (flow i : Nat) (st : Statement)
    (home : DataArray) : Prop where
  housed : st.Housed m.arrays home
  allocated : array = { home with buffer := array.buffer }
  single : Extent.Single home.extents
  moves : s.flow i = flow
  offset : s.isSteady i = true → array.buffer.offset = s.offset i
  period : 0 < s.period i → array.buffer.period = s.period i

theorem Feeds.extents {array : DataArray} {flow i : Nat} {st : Statement} {home : DataArray}
    (h : Feeds m s array flow i st home) : array.extents = home.extents := by
  rw [h.allocated]

theorem Executes.admits {array : DataArray} {flow : Nat} {st : Statement} {home : DataArray} {x : List Int}
    (h : Executes m s k steady v st x) (hfeeds : Feeds m s array flow v.statement st home) :
    x.length = array.rank ∧ Extent.Admits array.extents none (translated s k v.statement x) := by
  have hlength : x.length = home.rank := h.length.trans hfeeds.housed.dims
  rw [DataArray.rank, hfeeds.extents]
  refine ⟨hlength, Extent.Admits.iff_solves.mpr ⟨?_, hfeeds.housed.inside _ h.domain⟩⟩
  rw [translated, List.length_modify]
  exact hlength

theorem exists_feeds (hc : c.Staged config library files m) {i number : Nat} {st : Statement}
    (hst : m.statements[i]? = some st) (hwrites : st.array = number) {array : DataArray}
    (harray : c.model.arrays[number]? = some array) {flow : Nat} (hflow : array.flow = some flow) :
    ∃ home, Feeds m c.schedule array flow i st home := by
  obtain ⟨home, hhoused⟩ := hc.built.housed st (List.mem_of_getElem? hst)
  have hhome := hhoused.home
  rw [hwrites] at hhome
  obtain ⟨slices, outlives, -, hallocated, -⟩ := Allocation.exists_buffer hc.allocate hhome
  obtain rfl := Option.some.inj (harray.symm.trans hallocated)
  obtain ⟨hperiod, hoffset⟩ := Allocation.buffer_attributes m c.schedule home number slices outlives
  have hsingle := hc.single home (List.mem_of_getElem? hhome)
  refine ⟨home, hhoused, rfl, hsingle, ?_, fun hsteady => ?_, fun hpos => ?_⟩
  · rw [hc.consistent.flows _ st hst, hhoused.flow, show home.flow = some flow from hflow, Option.getD_some]
  · rw [hoffset, ← hwrites]
    exact Allocation.offsetOf_eq hc.built.proper hc.synthesize hst hsteady
  · rw [hperiod, ← hwrites]
    exact Allocation.periodOf_eq hc.consistent hst hpos

/-! ### Visits of a stream -/

/-- What a visit computes of a stream is shown by the window of its phase. -/
structure Shown (m : Model) (s : Schedule) (number : Nat) (array : DataArray) (flow : Nat) (k : Int)
    (steady : Bool) (v : Visit) (st : Statement) (x : List Int) : Prop
    extends Executes m s k steady v st x where
  writes : st.array = number
  single : Extent.Single array.extents
  rank : x.length = array.rank
  moved : steady = true → translated s k v.statement x = x.modify flow (· + k * array.buffer.period)
  admits : Extent.Admits array.extents array.flow (translated s k v.statement x)
  first : (windowOf array k steady).first ≤ valuation (translated s k v.statement x) flow
  last : steady = true ∨ s.isSteady v.statement = true → valuation (translated s k v.statement x) flow <
    (windowOf array k steady).first + (windowOf array k steady).count

/-- The visits of a run in which elements of an array are computed, each with the periods that have been
completed before it. -/
def visitsOf (c : Compilation) (n number : Nat) : List (Int × Bool × Visit) :=
  (dated 0 (stepsOf c.nests n)).filter fun e =>
    (c.model.statements[e.2.2.statement]?).any (·.array == number)

theorem mem_visitsOf_iff {n number : Nat} : (k, steady, v) ∈ visitsOf c n number ↔
    (k, steady, v) ∈ dated 0 (stepsOf c.nests n) ∧
      ∃ st, c.model.statements[v.statement]? = some st ∧ st.array = number := by
  simp only [visitsOf, List.mem_filter, Option.any_eq_true, beq_iff_eq]

private theorem belongs_of_mem (hc : c.Staged config library files m) {n : Nat}
    (he : (k, steady, v) ∈ dated 0 (stepsOf c.nests n)) : Belongs m c.schedule (k, steady, v) := by
  obtain ⟨hearly, hlate⟩ := makes_nests hc
  have hbelongs : ∀ e ∈ dated 0 (stepsOf c.nests n ++ []), Belongs m c.schedule e :=
    belongs_of_steps (fun v hv => (hearly.visits v).mp hv) (fun v hv => (hlate.visits v).mp hv) n
      (by simp [dated])
  rw [List.append_nil] at hbelongs
  exact hbelongs _ he

theorem exists_shown (hc : c.Staged config library files m) {n number : Nat}
    (he : (k, steady, v) ∈ visitsOf c n number) {array : DataArray}
    (harray : c.model.arrays[number]? = some array) {flow : Nat} (hflow : array.flow = some flow) :
    ∃ st x, Shown m c.schedule number array flow k steady v st x := by
  obtain ⟨he, st, hst, hwrites⟩ := mem_visitsOf_iff.mp he
  rw [hc.statements_eq] at hst
  have hbelongs := belongs_of_mem hc he
  obtain ⟨home, hfeeds⟩ := exists_feeds hc hst hwrites harray hflow
  have hsingle : Extent.Single array.extents := by
    rw [hfeeds.extents]
    exact hfeeds.single
  cases steady with
  | false =>
    obtain ⟨st', x, hexecutes, hbefore⟩ := exists_executes_early hc.consistent hbelongs
    obtain rfl := Option.some.inj (hexecutes.statement.symm.trans hst)
    obtain ⟨hlength, hy⟩ := hexecutes.admits hfeeds
    refine ⟨st', x, hexecutes, hwrites, hsingle, hlength, nofun, hy.relax, ?_, fun hsteady => ?_⟩
    · exact hy.lower flow (List.getElem?_eq_some_iff.mp (DataArray.extent_of_flow hflow)).1 nofun
    · have hsteady : c.schedule.isSteady v.statement = true := hsteady.resolve_left nofun
      have hbefore := hbefore hsteady
      rw [hfeeds.moves] at hbefore
      rw [hexecutes.prologue rfl, translated_zero, windowOf, hfeeds.offset hsteady, zero_add]
      exact hbefore
  | true =>
    obtain ⟨st', x, hexecutes, hsteady, hpos, hfrom, hto⟩ := exists_executes_late hc.consistent hbelongs
    obtain rfl := Option.some.inj (hexecutes.statement.symm.trans hst)
    obtain ⟨hlength, hy⟩ := hexecutes.admits hfeeds
    rw [hfeeds.moves] at hfrom hto
    refine ⟨st', x, hexecutes, hwrites, hsingle, hlength, fun _ => ?_, hy.relax, ?_, fun _ => ?_⟩
    · rw [translated, hfeeds.moves, hfeeds.period hpos]
    · rw [windowOf, hfeeds.offset hsteady, hfeeds.period hpos]
      exact hfrom
    · rw [windowOf, hfeeds.offset hsteady, hfeeds.period hpos]
      exact hto

/-! ### Offsets -/

/-- The offset in the current window at which a visit addresses its element. -/
def offsetAt (s : Schedule) (array : DataArray) (flow : Nat) : Int × Bool × Visit → Int
  | (k, steady, v) => (windowOf array k steady).offset array flow (pointOf s (k, steady, v)).2

namespace Shown

variable {number : Nat} {array : DataArray} {flow : Nat} {st : Statement} {x : List Int}

theorem point_eq (h : Shown m s number array flow k steady v st x) :
    pointOf s (k, steady, v) = (v.statement, translated s k v.statement x) := by
  rw [pointOf, h.index, List.tail_cons]

theorem locates (h : Shown m s number array flow k steady v st x) (hflow : array.flow = some flow) :
    (windowOf array k steady).Locates array flow (pointOf s (k, steady, v)).2
      (offsetAt s array flow (k, steady, v)) := by
  have hlocates := Window.locates h.single hflow h.admits h.first
  rwa [offsetAt, h.point_eq]

/-- Where it runs in the steady state as well, a statement keeps to the windows. -/
theorem within (h : Shown m s number array flow k steady v st x) (hflow : array.flow = some flow)
    (hsteady : steady = true ∨ s.isSteady v.statement = true) :
    offsetAt s array flow (k, steady, v) < (windowOf array k steady).count * sliceOf array.extents := by
  have hlast := h.last hsteady
  rw [(h.locates hflow).inside, h.point_eq]
  exact hlast

/-- In all periods, a machine arrives at the offset in the current window. -/
theorem streamOffset_eq (h : Shown m s number array flow k steady v st x) (hflow : array.flow = some flow)
    {V : Type} (I : Interpretation V) :
    streamOffset I.target array (x.map I.ofInt) steady =
      pure (I.ofInt (offsetAt s array flow (k, steady, v))) := by
  have hoffset : offsetAt s array flow (k, steady, v) = (windowOf array 0 steady).offset array flow x := by
    rw [offsetAt, h.point_eq, Window.offset, Window.offset]
    cases steady with
    | false => rw [h.prologue rfl, translated_zero]
    | true =>
      rw [h.moved rfl, streamPosition_modify h.single hflow h.rank, windowOf, windowOf]
      ring
  rw [hoffset]
  exact Gives.eq_pure fun σ => gives_streamOffset h.single hflow h.rank steady

theorem point_unique (hm : m.Built) (hflow : array.flow = some flow)
    (h : Shown m s number array flow k steady v st x) {w : Visit} {st' : Statement} {x' : List Int}
    (h' : Shown m s number array flow k steady w st' x')
    (hoffset : offsetAt s array flow (k, steady, v) = offsetAt s array flow (k, steady, w)) :
    pointOf s (k, steady, v) = pointOf s (k, steady, w) := by
  have hposition := (h.locates hflow).position
  rw [hoffset, (h'.locates hflow).position, h.point_eq, h'.point_eq] at hposition
  have hpoints := streamPosition_injective h.single hflow h'.admits h.admits hposition
  have hdomain := h.domain
  rw [← hpoints] at hdomain
  have hstatements := writer_unique hm h.statement h'.statement (h.writes.trans h'.writes.symm) hdomain
    h'.domain
  rw [h.point_eq, h'.point_eq]
  exact Prod.ext hstatements hpoints.symm

end Shown

/-! ### Inputs -/

/-- There are elements of a stream at any distance along its flow. -/
theorem exists_beyond {array : DataArray} {flow : Nat} (hflow : array.flow = some flow) {y : Nat → Int}
    (hy : Solves y array.domain.cons) (t : Int) :
    ∃ z : Nat → Int, Solves z array.domain.cons ∧ t < z flow := by
  refine ⟨Function.update y flow (max t 0 + 1), PointSet.solves_box.mpr fun d extent hd => ?_, ?_⟩
  · by_cases hne : d = flow
    · subst hne
      rw [Function.update_self]
      refine ⟨by omega, ?_⟩
      rintro size rfl
      rw [DataArray.extent_of_flow hflow] at hd
      cases hd
    · rw [Function.update_of_ne hne]
      exact PointSet.solves_box.mp hy d extent hd
  · rw [Function.update_self]
    omega

private theorem input_identifierArray {p : Program} {id : Identifier} {i : Nat} {array : DataArray}
    (h : p.identifierArray id i = .ok array) : array.input = none := by
  unfold Program.identifierArray at h
  dsimp only at h
  split at h
  · cases h
    rfl
  · cases h
    rfl
  · cases h
    rfl
  · cases h

/-- What is written to the array of an input is the copy of that input. -/
theorem exists_copy {p : Program} (hm : (Model.build p).execute.1 = .ok m) {st : Statement}
    (hst : st ∈ m.statements) {array : DataArray} (harray : m.arrays[st.array]? = some array) {input : Nat}
    (hinput : array.input = some input) : ∃ number, st = Program.inputStatement array input number := by
  obtain ⟨copies, written, hassembled⟩ := Model.assembled_of_build hm
  cases hassembled.stems st hst with
  | @copy i input' number _ _ hhome h =>
    rw [h] at harray
    obtain rfl := Option.some.inj (hhome.symm.trans harray)
    obtain rfl : input' = input := Option.some.inj hinput
    exact ⟨number, h⟩
  | @pattern id i _ _ _ hid _ _ h =>
    obtain ⟨declared, _, hmade, hhome, -⟩ := hassembled.exists_written hid
    rw [h.home, hhome] at harray
    obtain rfl := Option.some.inj harray
    rw [input_identifierArray hmade] at hinput
    cases hinput

private theorem statementValue_copy {st : Statement} {number : Nat} {type : ValueType} {access : Access}
    (hst : st.computation = .input number type access) {array : DataArray}
    (harray : array.input.isSome = true) {V : Type} (I : Interpretation V) (env : List V) :
    statementValue m I.target ⟨st, env, steady⟩ array =
      streamOffset I.target array env steady >>= I.target.loadInput number := by
  simp only [statementValue, hst, harray]

theorem Shown.copies (hc : c.Staged config library files m) {number : Nat} {array : DataArray} {flow : Nat}
    {st : Statement} {x : List Int} (h : Shown m c.schedule number array flow k steady v st x)
    (hflow : array.flow = some flow) (harray : c.model.arrays[number]? = some array) {input : Nat}
    (hinput : array.input = some input) :
    c.schedule.isSteady v.statement = true ∧ ∀ {V : Type} (I : Interpretation V),
      statementValue c.model I.target ⟨st, x.map I.ofInt, steady⟩ array =
        I.target.loadInput input (I.ofInt (offsetAt c.schedule array flow (k, steady, v))) := by
  obtain ⟨home, hfeeds⟩ := exists_feeds hc h.statement h.writes harray hflow
  have hhoused := hfeeds.housed
  have hhome : home.input = some input := by rw [← hinput, hfeeds.allocated]
  have hmoves : home.flow = some flow := by
    rw [← hflow, hfeeds.allocated]
    rfl
  obtain ⟨copied, hcopy⟩ := exists_copy hc.build (List.mem_of_getElem? h.statement) hhoused.home hhome
  constructor
  · have hdomain := hhoused.inside _ h.domain
    apply Schedule.isSteady_of_unbounded hc.built.proper hc.synthesize h.statement (hhoused.flow.trans hmoves)
    rw [hcopy]
    exact exists_beyond hmoves hdomain
  · intro V I
    rw [statementValue_copy (congrArg Statement.computation hcopy) (by rw [hinput]; rfl),
      h.streamOffset_eq hflow, pure_bind]

/-! ### Runs -/

/-- How a run of the prologue and of some periods passes a stream on. -/
structure Passes (c : Compilation) (n number : Nat) (array : DataArray) (flow : Nat) : Prop where
  /-- Each visit addresses its element in the current window. -/
  locates : ∀ k steady v, (k, steady, v) ∈ visitsOf c n number →
    (windowOf array k steady).Locates array flow (pointOf c.schedule (k, steady, v)).2
      (offsetAt c.schedule array flow (k, steady, v))
  /-- The window contains the element, unless the statement runs in the prologue only. -/
  within : ∀ k steady v, (k, steady, v) ∈ visitsOf c n number →
    steady = true ∨ c.schedule.isSteady v.statement = true →
    offsetAt c.schedule array flow (k, steady, v) < (windowOf array k steady).count * sliceOf array.extents
  /-- An input is loaded from there. -/
  loads : ∀ input, array.input = some input → ∀ k steady v, (k, steady, v) ∈ visitsOf c n number →
    c.schedule.isSteady v.statement = true ∧ ∀ st, c.model.statements[v.statement]? = some st →
      ∀ {V : Type} (I : Interpretation V),
        statementValue c.model I.target ⟨st, v.index.tail.map I.ofInt, steady⟩ array =
          I.target.loadInput input (I.ofInt (offsetAt c.schedule array flow (k, steady, v)))
  /-- An output is stored there, once. -/
  stores : array.isOutput = true → ∀ k steady v, (k, steady, v) ∈ visitsOf c n number →
    ∀ st, c.model.statements[v.statement]? = some st →
      ∀ {V : Type} (I : Interpretation V) (deliver : V → V → Running V Unit),
        statement c.model (I.delivering deliver) v.statement (v.index.map I.ofInt) steady = (do
          let slot ← storing c.model I st array (v.index.tail.map I.ofInt) steady
          deliver (I.ofInt (offsetAt c.schedule array flow (k, steady, v))) (← I.target.load number slot))
  /-- No offset of a window is used twice. -/
  once : ((visitsOf c n number).map fun e => (e.1, e.2.1, offsetAt c.schedule array flow e)).Nodup
  /-- All elements that are shown by the windows of the run are passed on. -/
  complete : ∀ i st y, c.model.statements[i]? = some st → st.array = number → st.domain.Includes y →
    (c.schedule.isSteady i = true → valuation y flow < (windowOf array n true).first) →
    ∃ e ∈ visitsOf c n number, pointOf c.schedule e = (i, y)

variable {n number : Nat} {array : DataArray} {flow : Nat}

private theorem covers (hc : c.Staged config library files m) (n : Nat) :
    Nest.Covers c.schedule m ((dated 0 (stepsOf c.nests n)).map (pointOf c.schedule))
      fun first => 0 ≤ first ∧ first ≤ n := by
  obtain ⟨hearly, hlate⟩ := makes_nests hc
  have hcovers := Nest.covers_executed hc.consistent hearly hlate n
  have hpoints := map_pointOf_steps c.schedule c.nests n []
  simp only [dated, List.map_nil, List.append_nil] at hpoints
  rwa [hpoints]

theorem nodup_offsets (hc : c.Staged config library files m)
    (harray : c.model.arrays[number]? = some array) (hflow : array.flow = some flow) :
    ((visitsOf c n number).map fun e => (e.1, e.2.1, offsetAt c.schedule array flow e)).Nodup := by
  have hpoints := Schedule.nodup_of_ordered hc.consistent hc.built.proper (covers hc n).ordered
  apply List.Nodup.map_on
  · rintro ⟨k, steady, v⟩ he ⟨k', steady', w⟩ he' heq
    obtain ⟨hk, heq⟩ := Prod.mk.inj heq
    obtain ⟨hsteady, hoffset⟩ := Prod.mk.inj heq
    dsimp only at hk hsteady
    subst hk hsteady
    obtain ⟨_, _, hshown⟩ := exists_shown hc he harray hflow
    obtain ⟨_, _, hshown'⟩ := exists_shown hc he' harray hflow
    apply List.inj_on_of_nodup_map hpoints (List.mem_of_mem_filter he) (List.mem_of_mem_filter he')
    exact hshown.point_unique hc.built hflow hshown' hoffset
  · exact (List.Nodup.of_map _ hpoints).filter _

/-- After some periods, a run has come to all elements before the next window. -/
theorem exists_visit (hc : c.Staged config library files m) {i : Nat} {st : Statement} {y : List Int}
    (hst : m.statements[i]? = some st) (hwrites : st.array = number) (hy : st.domain.Includes y)
    (harray : c.model.arrays[number]? = some array) (hflow : array.flow = some flow)
    (hbefore : c.schedule.isSteady i = true → valuation y flow < (windowOf array n true).first) :
    ∃ e ∈ visitsOf c n number, pointOf c.schedule e = (i, y) := by
  obtain ⟨home, hfeeds⟩ := exists_feeds hc hst hwrites harray hflow
  have hhoused := hfeeds.housed
  rw [PointSet.includes_iff hhoused.regular, PointSet.has_iff_solves hhoused.regular hhoused.locals] at hy
  obtain ⟨t, ht⟩ := Schedule.exists_occurs hc.consistent hst hy.1 hy.2
  obtain ⟨first, rest, rfl⟩ := ht.exists_cons
  have hfirst : first ≤ n := by
    rcases Nest.occurs_cases ht with ⟨rfl, -⟩ | ⟨st', p, flow', hst', hp, hlate, -, -, -, rfl⟩
    · omega
    have hsteady := Schedule.isSteady_of_placement hp
    have hmoves : flow' = flow := by
      rw [← hfeeds.moves, hc.consistent.flows i st' hst', hlate.flows, Option.getD_some]
    have hbefore := hbefore hsteady
    rw [windowOf, hfeeds.offset hsteady, hfeeds.period hlate.period] at hbefore
    have hlt : (valuation y flow' - c.schedule.offset i) / c.schedule.period i < n := by
      rw [hmoves]
      apply Int.ediv_lt_of_lt_mul hlate.period
      linarith
    omega
  have hmem := ((covers hc n).mem i y).mpr ⟨first, rest, ht, Nest.nonneg_of_occurs ht, hfirst⟩
  obtain ⟨⟨k, steady, v⟩, he, hpoint⟩ := List.mem_map.mp hmem
  obtain ⟨rfl, -⟩ := Prod.mk.inj hpoint
  exact ⟨_, mem_visitsOf_iff.mpr ⟨he, st, by rw [hc.statements_eq, hst], hwrites⟩, hpoint⟩

/-- A statement loads from a stream input only when it copies it. -/
theorem copies_of_contains (hc : c.Staged config library files m) {st : Statement} (hst : st ∈ m.statements)
    {r : List Int} {input : Nat} {type : ValueType} {access : Access}
    (hpart : st.computation.Contains (.input input type access) r) {i : Input}
    (hi : c.model.inputs[input]? = some i) (hstream : i.isStream = true) :
    st.computation = .input input type access ∧ ∃ array flow,
      c.model.arrays[st.array]? = some array ∧ array.input = some input ∧ array.flow = some flow := by
  obtain ⟨_, _, hassembled⟩ := Model.assembled_of_build hc.build
  have hinputs : c.model.inputs = c.program.inputs :=
    (Allocation.inputs_eq hc.allocate).trans hassembled.inputs
  rw [hinputs] at hi
  obtain ⟨i', input', k, hi', hhome, hcopy, hwhole, -⟩ | ⟨g, -, -, i', _, _, hi', hfinite, -⟩ :=
    Model.makes_of_contains hc.build hst hpart
  · refine ⟨hwhole.symm, ?_⟩
    rw [hcopy] at hwhole
    obtain ⟨rfl, -, -⟩ := Computation.input.inj hwhole
    obtain rfl := Option.some.inj (hi.symm.trans hi')
    obtain ⟨slices, outlives, -, hallocated, -⟩ := Allocation.exists_buffer hc.allocate hhome
    obtain ⟨extent, hmem, hinfinite⟩ := List.any_eq_true.mp hstream
    obtain ⟨d, hd⟩ := List.getElem?_of_mem hmem
    rw [Option.isNone_iff_eq_none.mp hinfinite] at hd
    rw [hcopy]
    obtain ⟨flow, hflow⟩ := Option.ne_none_iff_exists'.mp
      (DataArray.flow_ne_none (a := Program.inputArray i input) hd)
    exact ⟨_, flow, hallocated, rfl, hflow⟩
  · obtain rfl := Option.some.inj (hi.symm.trans hi')
    rw [hstream] at hfinite
    cases hfinite

/-- Streams pass through windows. Loads and stores address their elements in the current window, each of them
once, and all elements before the next window are passed on. Nothing else loads from a stream input. -/
theorem streams_pass (hc : (Compilation.compile config library files).execute.1 = .ok c) :
    (∀ st ∈ c.model.statements, ∀ {r : List Int} {input : Nat} {type : ValueType} {access : Access}
      {i : Input}, st.computation.Contains (.input input type access) r → c.model.inputs[input]? = some i →
      i.isStream = true → st.computation = .input input type access ∧
        ∃ array flow, c.model.arrays[st.array]? = some array ∧ array.input = some input ∧
          array.flow = some flow) ∧
    ∀ {number : Nat} {array : DataArray} {flow : Nat}, c.model.arrays[number]? = some array →
      array.flow = some flow → ∀ n, Passes c n number array flow := by
  obtain ⟨m, hc⟩ := Compilation.staged_of_compile hc
  constructor
  · intro st hst r input type access i hpart hi hstream
    rw [hc.statements_eq] at hst
    exact copies_of_contains hc hst hpart hi hstream
  · intro number array flow harray hflow n
    refine ⟨?_, ?_, ?_, ?_, nodup_offsets hc harray hflow, ?_⟩
    · intro k steady v he
      obtain ⟨st, x, hshown⟩ := exists_shown hc he harray hflow
      exact hshown.locates hflow
    · intro k steady v he hsteady
      obtain ⟨st, x, hshown⟩ := exists_shown hc he harray hflow
      exact hshown.within hflow hsteady
    · intro input hinput k steady v he
      obtain ⟨st, x, hshown⟩ := exists_shown hc he harray hflow
      obtain ⟨hsteady, hloads⟩ := hshown.copies hc hflow harray hinput
      refine ⟨hsteady, fun st' hst' V I => ?_⟩
      rw [hc.statements_eq, hshown.statement] at hst'
      obtain rfl := Option.some.inj hst'
      rw [hshown.index, List.tail_cons]
      exact hloads I
    · intro houtput k steady v he st' hst' V I deliver
      obtain ⟨st, x, hshown⟩ := exists_shown hc he harray hflow
      obtain rfl : st = st' := by
        rw [hc.statements_eq, hshown.statement] at hst'
        exact Option.some.inj hst'
      have hx : (x.map I.ofInt).length = st.dims := by rw [List.length_map, hshown.length]
      rw [hshown.index, List.map_cons, List.tail_cons,
        statement_eq hst' (by rw [hshown.writes, harray]) houtput hx, hshown.streamOffset_eq hflow,
        hshown.writes]
      simp only [pure_bind]
    · intro i st y hst hwrites hy hbefore
      rw [hc.statements_eq] at hst
      exact exists_visit hc hst hwrites hy harray hflow hbefore

/-- A stream of rows, each of which holds two elements. -/
def rows : List SourceFile := [⟨"", "(array a int [inf 2] (pattern [i j] (+ i j))) (output a)".toList⟩]

/-- Each of two periods stores a row. -/
theorem streams_pass_rows : ∃ c array, (Compilation.compile {} ⟨⟨"", []⟩, []⟩ rows).execute.1 = .ok c ∧
    c.model.arrays[0]? = some array ∧ array.flow = some 0 ∧ array.isOutput = true ∧
    (visitsOf c 2 0).map (fun e => (e.1, e.2.1, offsetAt c.schedule array 0 e)) =
      [(0, true, 0), (0, true, 1), (1, true, 0), (1, true, 1)] ∧ Passes c 2 0 array 0 := by
  have hrun : (Outcome.passes (Compilation.compile {} ⟨⟨"", []⟩, []⟩ rows).execute.1 fun c =>
      (c.model.arrays[0]?).any fun array => decide (array.flow = some 0 ∧ array.isOutput = true ∧
        (visitsOf c 2 0).map (fun e => (e.1, e.2.1, offsetAt c.schedule array 0 e)) =
          [(0, true, 0), (0, true, 1), (1, true, 0), (1, true, 1)])) = true := by
    decide +kernel
  obtain ⟨c, hc, hrun⟩ := Outcome.exists_of_passes hrun
  obtain ⟨array, harray, hrun⟩ := (Option.any_eq_true _ _).mp hrun
  obtain ⟨hflow, houtput, hoffsets⟩ := of_decide_eq_true hrun
  exact ⟨c, array, hc, harray, hflow, houtput, hoffsets, (streams_pass hc).2 harray hflow 2⟩

/-- A stream that has four elements. -/
def fourElements : List SourceFile :=
  [⟨"", "(array a int [inf] (pattern [i] (when (<= i 3)) i)) (output a)".toList⟩]

/-- All elements are stored in the prologue, the window of which is empty. -/
theorem stored_ahead : ∃ c array, (Compilation.compile {} ⟨⟨"", []⟩, []⟩ fourElements).execute.1 = .ok c ∧
    c.model.arrays[0]? = some array ∧ array.flow = some 0 ∧ array.isOutput = true ∧
    (windowOf array 0 false).count = 0 ∧
    (visitsOf c 0 0).map (fun e => (e.1, e.2.1, offsetAt c.schedule array 0 e)) =
      [(0, false, 0), (0, false, 1), (0, false, 2), (0, false, 3)] := by
  have hrun : (Outcome.passes (Compilation.compile {} ⟨⟨"", []⟩, []⟩ fourElements).execute.1 fun c =>
      (c.model.arrays[0]?).any fun array => decide (array.flow = some 0 ∧ array.isOutput = true ∧
        (windowOf array 0 false).count = 0 ∧
        (visitsOf c 0 0).map (fun e => (e.1, e.2.1, offsetAt c.schedule array 0 e)) =
          [(0, false, 0), (0, false, 1), (0, false, 2), (0, false, 3)])) = true := by
    decide +kernel
  obtain ⟨c, hc, hrun⟩ := Outcome.exists_of_passes hrun
  obtain ⟨array, harray, hrun⟩ := (Option.any_eq_true _ _).mp hrun
  exact ⟨c, array, hc, harray, of_decide_eq_true hrun⟩

end Lowering

end StreamLoom
