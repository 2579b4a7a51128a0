import StreamLoom.Proofs.Compilation.Stages
import StreamLoom.Proofs.Lowering.Arrangement

/-!
# What a read finds

When a machine comes to a statement, it has stored precisely the points whose time is earlier. The
element that is read there is among them, and nothing stored since then has taken its slot. Whether the
read looks into that slot is another matter. A machine evaluates the index of an access at a point of
the first period, and leaves it to the phase of the buffer to account for the periods since. This is
right for an index that advances as far in a period as the buffer is turned. An access drifts by the
difference, and finds its element when its drift comes to whole turns of the buffer.
-/

namespace StreamLoom

attribute [local instance] Arithmetic.exact

open StreamLoom.System (Solves Over)
open StreamLoom.Nest (Visit Nests Node translated VisitsPhase Covers)

/-! ### Everything earlier has been stored -/

namespace Schedule

variable {s : Schedule} {m : Model} {i : Nat} {x t u : List Int}

theorem Occurs.unique (hs : s.Consistent m) (hm : m.Proper) (ht : s.Occurs m i x t)
    (hu : s.Occurs m i x u) : t = u := by
  rw [← time?_eq_some_iff hs hm] at ht hu
  exact Option.some.inj (Except.ok.inj (ht.symm.trans hu))

theorem nodup_of_ordered (hs : s.Consistent m) (hm : m.Proper) {points : List (Nat × List Int)}
    (h : points.Pairwise fun a b => ∃ t u, s.Occurs m a.1 a.2 t ∧ s.Occurs m b.1 b.2 u ∧ t < u) :
    points.Nodup := by
  refine h.imp ?_
  rintro a b ⟨t, u, ht, hu, hlt⟩ rfl
  rw [ht.unique hs hm hu] at hlt
  exact lt_irrefl _ hlt

theorem Occurs.exists_cons (h : s.Occurs m i x t) : ∃ first rest, t = first :: rest := by
  cases h with
  | early => exact ⟨_, _, rfl⟩
  | late => exact ⟨_, _, rfl⟩

/-- Some points are those whose time is before a given one, in the order of their times. -/
structure Precede (s : Schedule) (m : Model) (points : List (Nat × List Int)) (t : List Int) : Prop where
  mem : ∀ j y, (j, y) ∈ points ↔ ∃ u, s.Occurs m j y u ∧ u < t
  ordered : points.Pairwise fun a b => ∃ t u, s.Occurs m a.1 a.2 t ∧ s.Occurs m b.1 b.2 u ∧ t < u

/-- What stands before a point in a run precedes it. -/
theorem precede_of_covers (hs : s.Consistent m) (hm : m.Proper) {before after : List (Nat × List Int)}
    {n : Nat} (h : Covers s m (before ++ (i, x) :: after) fun first => 0 ≤ first ∧ first ≤ n) :
    ∃ t, s.Occurs m i x t ∧ s.Precede m before t := by
  obtain ⟨first, rest, hx, -, hfirst⟩ := (h.mem i x).mp (by simp)
  obtain ⟨hbefore, hfrom, hacross⟩ := List.pairwise_append.mp h.ordered
  have hafter := (List.pairwise_cons.mp hfrom).1
  refine ⟨first :: rest, hx, fun j y => ⟨fun hy => ?_, ?_⟩, hbefore⟩
  · obtain ⟨t, u, ht, hu, hlt⟩ := hacross (j, y) hy (i, x) List.mem_cons_self
    rw [hx.unique hs hm hu]
    exact ⟨t, ht, hlt⟩
  · rintro ⟨u, hy, hlt⟩
    obtain ⟨first', rest', rfl⟩ := hy.exists_cons
    have hle : first' ≤ first := by
      rcases List.cons_lt_cons_iff.mp hlt with hlt | ⟨rfl, -⟩
      · exact hlt.le
      · exact le_rfl
    have hmem := (h.mem j y).mpr ⟨first', rest', hy, Nest.nonneg_of_occurs hy, hle.trans hfirst⟩
    rcases List.mem_append.mp hmem with hmem | hmem
    · exact hmem
    -- Otherwise it would not be earlier.
    rcases List.mem_cons.mp hmem with heq | hmem
    · obtain ⟨rfl, rfl⟩ := Prod.mk.inj heq
      rw [hy.unique hs hm hx] at hlt
      exact absurd hlt (lt_irrefl _)
    · obtain ⟨t, u, ht, hu, hlt'⟩ := hafter (j, y) hmem
      rw [ht.unique hs hm hx, hu.unique hs hm hy] at hlt'
      exact absurd hlt (lt_asymm hlt')

end Schedule

/-! ### Compiled programs -/

namespace Compilation.Staged

variable {config : Config} {library : Library} {files : List SourceFile} {m : Model} {c : Compilation}

theorem built (hc : c.Staged config library files m) : m.Built := Model.built_of_build hc.build

theorem consistent (hc : c.Staged config library files m) : c.schedule.Consistent m :=
  Schedule.consistent_of_synthesize hc.built.proper hc.synthesize

theorem single (hc : c.Staged config library files m) : ∀ array ∈ m.arrays, Extent.Single array.extents :=
  Model.single_of_build (Program.single_of_read hc.read) hc.build

/-- Storage does not change what is computed. -/
theorem statements_eq (hc : c.Staged config library files m) : c.model.statements = m.statements :=
  Allocation.statements_eq hc.allocate

theorem arranged (hc : c.Staged config library files m) : Lowering.Arranged c.model c.schedule :=
  Allocation.arranged hc.built hc.consistent hc.allocate

end Compilation.Staged

namespace Lowering

variable {V : Type} {I : Interpretation V}

/-- A machine has run a compiled program up to a visit, in one of its periods. -/
def Machine.Reaches (σ : Machine V) (I : Interpretation V) (c : Compilation) (steady : Bool) (v : Visit) :
    Prop :=
  ∃ n before after, stepsOf c.nests n = before ++ .visit steady v :: after ∧
    (performAll I c.model c.schedule before).from (.initial I c.model) = (.ok (), σ)

/-- What is known of a machine that comes to a visit at some time. -/
structure Arrives (I : Interpretation V) (m : Model) (c : Compilation) (σ : Machine V) (steady : Bool)
    (v : Visit) (t : List Int) : Prop where
  tracks : ∃ points rest, Tracks I c.model c.schedule points σ (.visit steady v :: rest)
  occurs : c.schedule.Occurs m v.statement (translated c.schedule σ.period v.statement v.index.tail) t
  precede : c.schedule.Precede m (σ.log.map fun e => (e.statement, e.point)) t

variable {config : Config} {library : Library} {files : List SourceFile} {m : Model} {c : Compilation}

private theorem visitsPhase_eq {m m' : Model} (h : m'.statements = m.statements) :
    VisitsPhase m' = VisitsPhase m := by
  funext phase v
  simp [VisitsPhase, Model.nameOf, h]

theorem makes_nests (hc : c.Staged config library files m) :
    (Node.executeAll [] c.nests.prologue).Makes () (VisitsPhase m c.schedule.prologue)
      (Nest.Precedes c.schedule.prologue) ∧
    (Node.executeAll [] c.nests.steady).Makes () (VisitsPhase m c.schedule.steady)
      (Nest.Precedes c.schedule.steady) := by
  obtain ⟨prologue, hprologue, hrest⟩ := Stage.yields_bind (Stage.yields_of_execute hc.generate)
  obtain ⟨steady, hsteady, hrest⟩ := Stage.yields_bind hrest
  obtain ⟨-, -, hrest⟩ := Stage.yields_bind hrest
  obtain ⟨-, -, hrest⟩ := Stage.yields_bind hrest
  rw [← Stage.yields_pure hrest, ← visitsPhase_eq hc.statements_eq]
  have hproper := hc.built.proper
  exact ⟨Nest.execute_ofPhase (Nest.looped_prologue hc.consistent hproper) (Stage.yields_ofExcept hprologue),
    Nest.execute_ofPhase (Nest.looped_steady hc.consistent hproper) (Stage.yields_ofExcept hsteady)⟩

theorem Machine.Reaches.arrives (hc : c.Staged config library files m) {σ : Machine V} {steady : Bool}
    {v : Visit} (h : σ.Reaches I c steady v) : ∃ t, Arrives I m c σ steady v t := by
  obtain ⟨n, before, after, hsteps, hrun⟩ := h
  obtain ⟨hearly, hlate⟩ := makes_nests hc
  have hcovers := Nest.covers_executed hc.consistent hearly hlate n
  rw [← visitsPhase_eq hc.statements_eq] at hearly hlate
  have htracks := tracks_initial I (fun v hv => (hearly.visits v).mp hv)
    (fun v hv => (hlate.visits v).mp hv) n
  rw [hsteps] at htracks
  have htracks := htracks.steps hc.arranged hrun
  rw [← htracks.order, dated, List.map_cons] at hcovers
  obtain ⟨t, hoccurs, hprecede⟩ := Schedule.precede_of_covers hc.consistent hc.built.proper hcovers
  exact ⟨t, ⟨_, _, htracks⟩, hoccurs, hprecede⟩

/-! ### Elements keep their slots -/

/-- Of the statements that write an array, at most one writes a given element. -/
theorem writer_unique (hm : m.Built) {i j : Nat} {st st' : Statement} (hi : m.statements[i]? = some st)
    (hj : m.statements[j]? = some st') (harray : st.array = st'.array) {y : Nat → Int}
    (hy : Solves y st.domain.cons) (hy' : Solves y st'.domain.cons) : i = j := by
  have hpairs := List.pairwise_iff_getElem.mp hm.pairwise_disjoint
  obtain ⟨hilt, rfl⟩ := List.getElem?_eq_some_iff.mp hi
  obtain ⟨hjlt, rfl⟩ := List.getElem?_eq_some_iff.mp hj
  rcases lt_trichotomy i j with hlt | heq | hlt
  · exact absurd hy' (hpairs i j hilt hjlt hlt harray y hy)
  · exact heq
  · exact absurd hy (hpairs j i hjlt hilt hlt harray.symm y hy')

variable {σ : Machine V} {steady : Bool} {v : Visit} {t : List Int}

/-- Different times of an array are those of different elements. -/
private theorem point_ne_of_lt (hc : c.Staged config library files m) {i j : Nat} {st st' : Statement}
    (hi : m.statements[i]? = some st) (hj : m.statements[j]? = some st') (harray : st.array = st'.array)
    {y z u u' : List Int} (hy : c.schedule.Occurs m i y u) (hz : c.schedule.Occurs m j z u')
    (hlt : u < u') : z ≠ y := by
  rintro rfl
  obtain ⟨_, -, hget, -, -, -, hsolves⟩ := Execution.exists_of_occurs hc.consistent hc.built.proper hy
  obtain ⟨_, -, hget', -, -, -, hsolves'⟩ := Execution.exists_of_occurs hc.consistent hc.built.proper hz
  obtain rfl := Option.some.inj (hi.symm.trans hget)
  obtain rfl := Option.some.inj (hj.symm.trans hget')
  obtain rfl := writer_unique hc.built hi hj harray hsolves hsolves'
  rw [hy.unique hc.consistent hc.built.proper hz] at hlt
  exact lt_irrefl _ hlt

/-- What has been stored after an element was computed after it. -/
private theorem Arrives.between (hc : c.Staged config library files m) (h : Arrives I m c σ steady v t)
    {before after : List (Stored V)} {e e' : Stored V} (hlog : σ.log = before ++ e :: after)
    (he' : e' ∈ after) :
    ∃ u u', c.schedule.Occurs m e.statement e.point u ∧ c.schedule.Occurs m e'.statement e'.point u' ∧
      u < u' ∧ u' < t := by
  have hmem : e' ∈ σ.log := by simp [hlog, he']
  have hordered := List.pairwise_map.mp h.precede.ordered
  rw [hlog] at hordered
  obtain ⟨u, u', hu, hu', hlt⟩ :=
    (List.pairwise_cons.mp (List.pairwise_append.mp hordered).2.1).1 e' he'
  obtain ⟨w, hw, hbefore⟩ := (h.precede.mem e'.statement e'.point).mp (List.mem_map_of_mem hmem)
  rw [← hu'.unique hc.consistent hc.built.proper hw] at hbefore
  exact ⟨u, u', hu, hu', hlt, hbefore⟩

/-- Until it is read, a value stays in the slot into which it was stored. -/
theorem Arrives.kept (hc : c.Staged config library files m) (h : Arrives I m c σ steady v t)
    {d : Dependency} (hd : d ∈ m.dependencies) (hconsumer : d.consumer = v.statement) {e : Stored V}
    (he : e ∈ σ.log) (hproducer : d.producer = e.statement)
    (hlinks : d.relation.Links
      (valuation (translated c.schedule σ.period v.statement v.index.tail)) (valuation e.point)) :
    σ.buffers e.array e.slot = e.value := by
  obtain ⟨points, rest, htracks⟩ := h.tracks
  obtain ⟨before, after, hlog⟩ := List.append_of_mem he
  refine htracks.retains.stored before e after hlog fun e' he' harray hslot => ?_
  obtain ⟨u, u', hu, hu', hlt, hbefore⟩ := h.between hc hlog he'
  obtain ⟨st, array, hst, hstarray, hget, heslot⟩ := htracks.logged e he
  obtain ⟨st', array', hst', hstarray', hget', heslot'⟩ := htracks.logged e' (by simp [hlog, he'])
  rw [hc.statements_eq] at hst hst'
  have hdarray : d.array = e.array := by
    obtain ⟨producer, consumer, hjoins⟩ := hc.built.joins hd
    have hwrites := hjoins.writes
    rw [hproducer, hst, Option.some.injEq] at hwrites
    rw [← hjoins.array, ← hwrites, hstarray]
  have hwriter : e'.statement ∈ m.writers d.array := by
    exact Model.mem_writers_iff.mpr ⟨st', hst', by rw [hstarray', harray, hdarray]⟩
  have hne := point_ne_of_lt hc hst hst' (by rw [hstarray, hstarray', harray]) hu hu' hlt
  have hoccurs := h.occurs
  rw [← hconsumer] at hoccurs hlinks
  rw [← hproducer] at hu
  -- Two elements that are both needed at one time have different slots.
  obtain ⟨allocated, layout, slot, slot', hallocated, hlayout, hz, hy, hslots⟩ :=
    Allocation.slot_ne_of_occurs hc.built hc.consistent hc.single hc.allocate hd hlinks hwriter hne hoccurs
      hu hu' hlt hbefore
  have hallocated : c.model.arrays[d.array]? = some allocated := hallocated
  rw [hdarray, hget, Option.some.injEq] at hallocated
  rw [harray, hget, Option.some.injEq] at hget'
  apply hslots
  have hlayout : layout = layoutOf allocated := Layout.eq_of_ofArray? hlayout
  rw [Layout.eq_of_flatten? hz, Layout.eq_of_flatten? hy, hlayout, ← hallocated, ← heslot, ← hslot, heslot',
    hget']

/-! ### Accesses that drift -/

/-- How far the buffer of an array is turned in a period, ahead of the index of an access to it from a
statement. -/
def drift (s : Schedule) (i : Nat) (array : DataArray) (access : Access) : Int :=
  array.buffer.period * (layoutOf array).slice -
    s.period i * Arithmetic.dot (access.pattern.map (·.coeff (s.flow i))) (layoutOf array).strides

/-- At a point that is moved by some periods, an access refers to the slot that it had before just when its
drift comes to whole turns of the buffer. -/
theorem flatten_translated_iff (s : Schedule) {i : Nat} {x : List Int} (hflow : s.flow i < x.length) (k : Int)
    (array : DataArray) (access : Access) (r : List Int) :
    (layoutOf array).flatten (access.pattern.map (·.eval (x ++ r))) (k * array.buffer.period) =
        (layoutOf array).flatten (access.pattern.map (·.eval (translated s k i x ++ r))) 0 ↔
      (layoutOf array).length ∣ k * drift s i array access := by
  rw [flatten_eq_iff_dvd, translated, dot_map_eval_modify _ hflow, drift]
  refine iff_of_eq (congrArg _ ?_)
  ring

/-- A machine looks into the slot of an element just when the drift of the access comes to whole turns
of the buffer. -/
theorem Arranged.flatten_read_iff {m : Model} {s : Schedule} (h : Arranged m s) {k : Int} {steady : Bool}
    {v : Visit} (hv : Belongs m s (k, steady, v)) (array : DataArray) (access : Access) (r : List Int) :
    (layoutOf array).flatten (access.pattern.map (·.eval (v.index.tail ++ r))) (k * array.buffer.period) =
        (layoutOf array).flatten
          (access.pattern.map (·.eval (translated s k v.statement v.index.tail ++ r))) 0 ↔
      (layoutOf array).length ∣ k * drift s v.statement array access := by
  cases steady with
  | false =>
    obtain ⟨rfl, -⟩ := hv
    simp [translated_zero]
  | true =>
    obtain ⟨st, x, -, hindex, hlength, hlate⟩ := h.visited hv
    obtain ⟨flow, p, hlate, hflow⟩ := hlate rfl
    refine flatten_translated_iff s ?_ k array access r
    rw [hindex, List.tail_cons, hlength, hflow]
    exact hlate.inside

/-! ### Reads and writes -/

section

variable {reader : Statement} {number : Nat} {type : ValueType} {access : Access} {r : List Int}

theorem exists_allocated (hc : c.Staged config library files m) (hreader : reader ∈ m.statements)
    (hreading : reader.computation.Reading r number type access) :
    ∃ array slices outlives, m.arrays[number]? = some array ∧ access.pattern.length = array.rank ∧
      1 ≤ slices ∧ c.model.arrays[number]? =
        some { array with buffer := Allocation.buffer m c.schedule array number slices outlives } := by
  obtain ⟨home, hhoused⟩ := hc.built.housed reader hreader
  obtain ⟨_, array, -, harray, hrank, -, -, -, -⟩ :=
    hreading.framed hhoused.modelled (show ([] : List Int).length = _ from rfl) (by simp [Frame.Ranges])
  obtain ⟨slices, outlives, hslices, hallocated, -⟩ := Allocation.exists_buffer hc.allocate harray
  exact ⟨array, slices, outlives, harray, hrank, hslices, hallocated⟩

theorem Arrives.gives_read (hc : c.Staged config library files m) (h : Arrives I m c σ steady v t)
    (hreader : reader ∈ m.statements) (hreading : reader.computation.Reading r number type access)
    {array : DataArray} (harray : c.model.arrays[number]? = some array) {σ' : Machine V}
    (hagrees : σ'.Agrees (σ.entering c.schedule steady v)) :
    Gives (value c.model I.target ⟨reader, (v.index.tail ++ r).map I.ofInt, steady⟩
      (.read number type access)) σ' (σ.buffers number ((layoutOf array).flatten
        (access.pattern.map (·.eval (v.index.tail ++ r))) (σ.period * array.buffer.period))) := by
  obtain ⟨array₀, slices, outlives, -, hrank, -, hallocated⟩ := exists_allocated hc hreader hreading
  obtain ⟨points, rest, htracks⟩ := h.tracks
  obtain ⟨cells, rfl⟩ := hagrees
  have hturned := htracks.turned number array harray
  rw [harray] at hallocated
  obtain rfl := Option.some.inj hallocated
  exact Lowering.gives_read (σ := { σ.entering c.schedule steady v with cells := cells }) harray
    (Allocation.laid_buffer slices outlives) hturned hrank type reader _ steady

/-- An element that is read has been stored before, by a statement on which the reader depends. -/
theorem Arrives.exists_stored (hc : c.Staged config library files m) (h : Arrives I m c σ steady v t)
    (hreader : m.statements[v.statement]? = some reader)
    (hreading : reader.computation.Reading r number type access) {p : Nat} {writer : Statement}
    (hwriter : m.statements[p]? = some writer) (harray : writer.array = number) {y : List Int}
    (hy : access.pattern.map
      (·.eval (translated c.schedule σ.period v.statement v.index.tail ++ r)) = y)
    (hdomain : writer.domain.Includes y) :
    ∃ d ∈ m.dependencies, d.consumer = v.statement ∧ d.producer = p ∧
      d.relation.Links (valuation (translated c.schedule σ.period v.statement v.index.tail))
        (valuation y) ∧ ∃ e ∈ σ.log, e.statement = p ∧ e.point = y := by
  obtain ⟨_, hhoused⟩ := hc.built.housed writer (List.mem_of_getElem? hwriter)
  rw [PointSet.includes_iff hhoused.regular, PointSet.has_iff_solves hhoused.regular hhoused.locals]
    at hdomain
  obtain ⟨_, -, hget, -, -, hlength, hx⟩ :=
    Execution.exists_of_occurs hc.consistent hc.built.proper h.occurs
  rw [hreader, Option.some.injEq] at hget
  rw [← hget] at hlength hx
  subst hy
  obtain ⟨d, hd, hconsumer, hproducer, -, hlinks⟩ :=
    hc.built.dependency_of_reading hreader hreading hwriter harray hlength hx hdomain.2
  obtain ⟨ty, hty⟩ := Schedule.exists_occurs hc.consistent hwriter hdomain.1 hdomain.2
  have hlt : ty < t := by
    obtain ⟨producer, consumer, hjoins⟩ := hc.built.joins hd
    have hrespects := Schedule.respects_of_synthesize hc.built.proper hc.synthesize
    exact Schedule.lt_of_occurs hc.consistent hrespects hd hjoins hlinks (hconsumer ▸ h.occurs)
      (hproducer ▸ hty)
  refine ⟨d, hd, hconsumer, hproducer, hlinks, ?_⟩
  obtain ⟨e, he, heq⟩ := List.mem_map.mp ((h.precede.mem p _).mpr ⟨ty, hty, hlt⟩)
  obtain ⟨hstatement, hpoint⟩ := Prod.mk.inj heq
  exact ⟨e, he, hstatement, hpoint⟩

end

private theorem Arrives.stored_unique (hc : c.Staged config library files m) (h : Arrives I m c σ steady v t)
    {e e' : Stored V} (he : e ∈ σ.log) (he' : e' ∈ σ.log) (hstatement : e'.statement = e.statement)
    (hpoint : e'.point = e.point) : e' = e := by
  have hnodup := Schedule.nodup_of_ordered hc.consistent hc.built.proper h.precede.ordered
  exact List.inj_on_of_nodup_map hnodup he' he (Prod.ext hstatement hpoint)

/-- An element that is read has been stored, once, and is still in its slot. A read finds what is in some
slot, which is that of the element just when the access has drifted by whole turns of the buffer. -/
theorem read_finds_write (hc : (Compilation.compile config library files).execute.1 = .ok c)
    (hσ : σ.Reaches I c steady v) {reader writer : Statement} {p number : Nat} {type : ValueType}
    {access : Access} {r y : List Int} (hreader : c.model.statements[v.statement]? = some reader)
    (hreading : reader.computation.Reading r number type access)
    (hwriter : c.model.statements[p]? = some writer) (harray : writer.array = number)
    (hy : access.pattern.map
      (·.eval (translated c.schedule σ.period v.statement v.index.tail ++ r)) = y)
    (hdomain : writer.domain.Includes y) :
    ∃ array e slot, c.model.arrays[number]? = some array ∧
      (∀ e', e' ∈ σ.log ∧ e'.statement = p ∧ e'.point = y ↔ e' = e) ∧
      σ.buffers number e.slot = e.value ∧
      (∀ σ', σ'.Agrees (σ.entering c.schedule steady v) →
        Gives (value c.model I.target ⟨reader, (v.index.tail ++ r).map I.ofInt, steady⟩
          (.read number type access)) σ' (σ.buffers number slot)) ∧
      (slot = e.slot ↔
        (layoutOf array).length ∣ σ.period * drift c.schedule v.statement array access) := by
  obtain ⟨m, hc⟩ := Compilation.staged_of_compile hc
  rw [hc.statements_eq] at hreader hwriter
  obtain ⟨t, hat⟩ := hσ.arrives hc
  obtain ⟨points, rest, htracks⟩ := hat.tracks
  have hmem := List.mem_of_getElem? hreader
  obtain ⟨d, hd, hconsumer, hproducer, hlinks, e, he, hstatement, hpoint⟩ :=
    hat.exists_stored hc hreader hreading hwriter harray hy hdomain
  obtain ⟨st, array, hst, hstarray, harrays, hslot⟩ := htracks.logged e he
  have hnumber : e.array = number := by
    rw [hc.statements_eq, hstatement, hwriter, Option.some.injEq] at hst
    rw [← hstarray, ← hst, harray]
  rw [hnumber] at harrays
  refine ⟨array, e, _, harrays, fun e' => ⟨?_, ?_⟩, ?_,
    fun σ' hagrees => hat.gives_read hc hmem hreading harrays hagrees, ?_⟩
  · rintro ⟨he', hstatement', hpoint'⟩
    exact hat.stored_unique hc he he' (hstatement'.trans hstatement.symm) (hpoint'.trans hpoint.symm)
  · rintro rfl
    exact ⟨he, hstatement, hpoint⟩
  · rw [← hnumber]
    exact hat.kept hc hd hconsumer he (hproducer.trans hstatement.symm) (hpoint.symm ▸ hlinks)
  · have hbelongs := htracks.belongs (σ.period, steady, v) List.mem_cons_self
    rw [hslot, hpoint, ← hy]
    exact hc.arranged.flatten_read_iff hbelongs array access r

/-! ### A run on integers -/

/-- Values are integers, of which sums can be made. -/
def Interpretation.integers : Interpretation Int where
  ofInt x := x
  toInt x := x
  toInt_ofInt _ := rfl
  zero _ := 0
  constant
    | .int x => x
    | .bool b => b.toInt
    | .real _ => 0
  convert x _ _ := x
  primitive op _ _ operands :=
    match op, operands with
    | .add, [x, y] => .ok (x + y)
    | _, _ => .error (.unsupported "integers" "operation")
  truth x := x != 0
  input _ _ _ _ := 0

/-- Tests what a compiled program reads at some step of a run on integers, where the statement of that
step adds it to something else. -/
def readsAt (c : Compilation) (n k : Nat)
    (test : Machine Int → Bool → Visit → Statement → Nat → Access → Bool) : Bool :=
  match (stepsOf c.nests n)[k]? with
  | some (.visit steady v) => (c.model.statements[v.statement]?).any fun reader =>
    match reader.computation, (performAll .integers c.model c.schedule ((stepsOf c.nests n).take k)).from
        (.initial .integers c.model) with
    | .apply .add _ [_, .read number _ access], (.ok (), σ) => test σ steady v reader number access
    | _, _ => false
  | _ => false

theorem exists_of_readsAt {c : Compilation} {n k : Nat}
    {test : Machine Int → Bool → Visit → Statement → Nat → Access → Bool} (h : readsAt c n k test = true) :
    ∃ σ steady v reader number type access, Machine.Reaches σ .integers c steady v ∧
      c.model.statements[v.statement]? = some reader ∧
      reader.computation.Reading [] number type access ∧ test σ steady v reader number access = true := by
  unfold readsAt at h
  split at h
  · rename_i steady v hstep
    obtain ⟨reader, hreader, h⟩ := (Option.any_eq_true _ _).mp h
    split at h
    · rename_i type first number type' access σ hcomputation hrun
      have hsteps : stepsOf c.nests n =
          (stepsOf c.nests n).take k ++ .visit steady v :: (stepsOf c.nests n).drop (k + 1) := by
        obtain ⟨hk, hget⟩ := List.getElem?_eq_some_iff.mp hstep
        rw [← hget, List.cons_getElem_drop_succ, List.take_append_drop]
      refine ⟨σ, steady, v, reader, number, type', access, ⟨n, _, _, hsteps, hrun⟩, hreader, ?_, h⟩
      rw [hcomputation]
      exact .operand (by simp) .here
    · cases h
  · cases h

/-- Every element is one more than the second before it. -/
def counting : List SourceFile := [⟨"", "(array a int [inf] (pattern [i] (+ 1 (a (- i 2)))))".toList⟩]

/-- In the third period, the third element is computed from the first. -/
theorem read_finds_write_counting : ∃ c σ v reader type access e,
    (Compilation.compile {} ⟨⟨"", []⟩, []⟩ counting).execute.1 = .ok c ∧
    Machine.Reaches σ .integers c true v ∧ σ.period = 2 ∧
    c.model.statements[v.statement]? = some reader ∧
    reader.computation.Reading [] 0 type access ∧ e ∈ σ.log ∧ e.point = [0] ∧
    Gives (value c.model Interpretation.integers.target
      ⟨reader, (v.index.tail ++ []).map Interpretation.integers.ofInt, true⟩ (.read 0 type access))
      (σ.entering c.schedule true v) e.value := by
  have hrun : (Outcome.passes (Compilation.compile {} ⟨⟨"", []⟩, []⟩ counting).execute.1 fun c =>
      readsAt c 3 4 fun σ steady v reader number access =>
        decide (steady = true ∧ number = 0 ∧ σ.period = 2 ∧ reader.array = 0 ∧
          1 = reader.domain.dims ∧ 0 = reader.domain.locals ∧
          (∀ c ∈ reader.domain.cons, c.holds [0] = true) ∧ access.pattern.map
            (·.eval (translated c.schedule σ.period v.statement v.index.tail ++ [])) = [0]) &&
        (c.model.arrays[0]?).all fun array =>
          decide ((layoutOf array).length ∣ σ.period * drift c.schedule v.statement array access)) =
      true := by
    decide +kernel
  obtain ⟨c, hc, hrun⟩ := Outcome.exists_of_passes hrun
  obtain ⟨σ, steady, v, reader, number, type, access, hσ, hreader, hreading, hrun⟩ := exists_of_readsAt hrun
  obtain ⟨hrun, hdrift⟩ := Bool.and_eq_true_iff.mp hrun
  obtain ⟨rfl, rfl, hperiod, harray, hdims, hlocals, hholds, hy⟩ := of_decide_eq_true hrun
  have hdomain : reader.domain.Includes [0] := ⟨hdims, [], hlocals, hholds⟩
  obtain ⟨array, e, slot, hget, hstored, hkept, hgives, hslot⟩ :=
    read_finds_write hc hσ hreader hreading hreader harray hy hdomain
  obtain ⟨he, -, hpoint⟩ := (hstored e).mpr rfl
  rw [hget] at hdrift
  have hgives := hgives _ (.refl _)
  rw [hslot.mpr (of_decide_eq_true hdrift), hkept] at hgives
  exact ⟨c, σ, v, reader, type, access, e, hc, hσ, hperiod, hreader, hreading, he, hpoint, hgives⟩

end Lowering

end StreamLoom
