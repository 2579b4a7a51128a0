import StreamLoom.Proofs.Model.Build

/-!
# Dependencies and writers

A dependency relates a point of its consumer to the points of its producer which write what is read
there. It holds nothing else, and it misses no such point. Together with the check for overlaps this
makes the writer of an element unique.
-/

namespace StreamLoom

attribute [local instance] Arithmetic.exact

open StreamLoom.System (Solves Over)

theorem Statement.links_writing {domain : PointSet} {array : DataArray} (hregular : domain.Regular)
    (hdims : domain.dims = array.rank) {y z : Nat → Int} :
    (Statement.writing domain array).Links y z ↔ (∀ i, i < array.rank → z i = y i) ∧ domain.Has y := by
  have hidentity : (Relation.identity domain.name array.name array.rank).Regular :=
    Relation.regular_ofRows
  rw [writing, Relation.links_intersectDomain hidentity hregular hdims, Relation.links_identity]

@[simp] theorem Statement.inputs_writing (domain : PointSet) (array : DataArray) :
    (Statement.writing domain array).inputs = array.rank := rfl

@[simp] theorem Statement.outputs_writing (domain : PointSet) (array : DataArray) :
    (Statement.writing domain array).outputs = array.rank := by
  simp [writing, Relation.intersectDomain, Relation.identity, Relation.ofRows]

theorem Statement.regular_writing {domain : PointSet} {array : DataArray} :
    (Statement.writing domain array).Regular :=
  Relation.regular_intersectDomain Relation.regular_ofRows

structure Dependency.Joins (m : Model) (d : Dependency) (producer consumer : Statement) : Prop where
  writes : m.statements[d.producer]? = some producer
  reads : m.statements[d.consumer]? = some consumer
  array : producer.array = d.array
  inputs : d.relation.inputs = consumer.dims
  outputs : d.relation.outputs = producer.dims
  regular : d.relation.Regular
  consumes : ∀ {x y : Nat → Int}, d.relation.Links x y → Solves x consumer.domain.cons
  produces : ∀ {x y : Nat → Int}, d.relation.Links x y → Solves y producer.domain.cons

namespace Model

theorem mem_writers_iff {m : Model} {i number : Nat} :
    i ∈ m.writers number ↔ ∃ st, m.statements[i]? = some st ∧ st.array = number := by
  simp only [writers, List.mem_filter, List.mem_range, Option.any_eq_true, beq_iff_eq]
  refine and_iff_right_of_imp ?_
  rintro ⟨st, hst, -⟩
  exact (List.getElem?_eq_some_iff.mp hst).1

/-- Every domain is given by constraints over its dimensions alone, and flows along one of them. -/
def Proper (m : Model) : Prop :=
  ∀ s ∈ m.statements, s.domain.locals = 0 ∧ s.domain.Regular ∧ ∀ flow, s.flow = some flow → flow < s.dims

namespace Built

variable {m : Model}

theorem proper (hm : m.Built) : m.Proper := by
  intro s hs
  obtain ⟨array, hs⟩ := hm.housed s hs
  refine ⟨hs.locals, hs.regular, fun flow hflow => ?_⟩
  rw [hs.flow] at hflow
  rw [Statement.dims, hs.dims]
  exact DataArray.flow_lt hflow

/-! ### Dependencies -/

/-- The relation of a dependency, given what the consumer reads. -/
theorem links_composed {consumer producer : Statement} {read : Read} {array : DataArray}
    (hread : Computation.Reads m.arrays consumer.domain read) (hproducer : producer.Housed m.arrays array)
    (harray : producer.array = read.array) :
    read.relation.inputs = consumer.dims ∧ read.relation.Regular ∧
      ∀ x y : Nat → Int, (read.relation.compose producer.write.reverse).Links x y ↔
        read.relation.Links x y ∧ Solves y producer.domain.cons := by
  obtain ⟨f, array', pattern, hdomain, hget, hlength, hvars, hrelation⟩ := hread
  obtain rfl := hproducer.unique harray hget
  have hregular : read.relation.Regular := by
    rw [hrelation]
    exact Access.regular_relate
  have houtputs : read.relation.outputs = array.rank := by
    rw [hrelation, ← hlength]
    rfl
  refine ⟨?_, hregular, fun x y => ?_⟩
  · rw [hrelation, Statement.dims, ← hdomain]
    rfl
  · have hbetween : read.relation.outputs = (Statement.writing producer.domain array).reverse.inputs :=
      houtputs.trans (Statement.outputs_writing producer.domain array).symm
    rw [hproducer.write, Relation.links_compose hregular Relation.regular_reverse hbetween]
    constructor
    · rintro ⟨z, hxz, hzy⟩
      rw [Relation.links_reverse Statement.regular_writing,
        Statement.links_writing hproducer.regular hproducer.dims] at hzy
      rw [PointSet.has_iff_solves hproducer.regular hproducer.locals] at hzy
      refine ⟨(Relation.links_congr (fun _ _ => rfl) fun o ho => ?_).mp hxz, hzy.2⟩
      exact hzy.1 o (by omega)
    · rintro ⟨hxy, hy⟩
      refine ⟨y, hxy, ?_⟩
      rw [Relation.links_reverse Statement.regular_writing,
        Statement.links_writing hproducer.regular hproducer.dims]
      exact ⟨fun _ _ => rfl, PointSet.has_of_solves hy⟩

theorem mem_dependencies {d : Dependency} (hm : m.Built) :
    d ∈ m.dependencies ↔ ∃ consumer read producer, m.statements[d.consumer]? = some consumer ∧
      read ∈ consumer.reads ∧ m.statements[d.producer]? = some producer ∧
      producer.array = read.array ∧ d.array = read.array ∧
      d.relation = read.relation.compose producer.write.reverse ∧ d.relation.isEmpty = false := by
  rw [hm.dependencies]
  simp only [dependenciesOf, dependenciesOn, List.mem_flatMap, List.mem_filterMap, List.mem_filter,
    Prod.exists, List.mem_zipIdx_iff_getElem?, beq_iff_eq]
  constructor
  · rintro ⟨consumer, c, hconsumer, read, hread, producer, p, ⟨hproducer, harray⟩, hd⟩
    split at hd
    · cases hd
    · rename_i hempty
      obtain rfl := Option.some.inj hd
      exact ⟨consumer, read, producer, hconsumer, hread, hproducer, harray, rfl, rfl,
        by simpa using hempty⟩
  · rintro ⟨consumer, read, producer, hconsumer, hread, hproducer, harray, hd, hrelation, hempty⟩
    refine ⟨consumer, d.consumer, hconsumer, read, hread, producer, d.producer, ⟨hproducer, harray⟩, ?_⟩
    rw [← hrelation, hempty, ← hd]
    rfl

theorem joins (hm : m.Built) {d : Dependency} (hd : d ∈ m.dependencies) :
    ∃ producer consumer, d.Joins m producer consumer := by
  obtain ⟨consumer, read, producer, hconsumer, hread, hproducer, harray, hdarray, hrelation, -⟩ :=
    (mem_dependencies hm).mp hd
  obtain ⟨array, hhoused⟩ := hm.housed producer (List.mem_of_getElem? hproducer)
  obtain ⟨array', hhoused'⟩ := hm.housed consumer (List.mem_of_getElem? hconsumer)
  have hreads := Computation.reads_of_modelled consumer.computation hhoused'.modelled read hread
  obtain ⟨hinputs, hregular, hlinks⟩ := links_composed hreads hhoused harray
  refine ⟨producer, consumer, hproducer, hconsumer, harray.trans hdarray.symm, ?_, ?_, ?_, ?_, ?_⟩
  · rw [hrelation]
    exact hinputs
  · rw [hrelation, hhoused.write]
    exact hhoused.dims.symm
  · rw [hrelation]
    exact Relation.regular_compose
  · intro x y hxy
    rw [hrelation, hlinks] at hxy
    obtain ⟨f, _, pattern, hdomain, -, -, hvars, hrelate⟩ := hreads
    have hregular' : f.domain.Regular := by rw [hdomain]; exact hhoused'.regular
    rw [hrelate, Access.links_relate hregular' hvars, hdomain,
      PointSet.has_iff_solves hhoused'.regular hhoused'.locals] at hxy
    exact hxy.1.1
  · intro x y hxy
    rw [hrelation, hlinks] at hxy
    exact hxy.2

/-- Whatever a statement reads depends on each statement that writes it. -/
theorem exists_dependency (hm : m.Built) {c p : Nat} {consumer producer : Statement} {read : Read}
    (hconsumer : m.statements[c]? = some consumer) (hread : read ∈ consumer.reads)
    (hproducer : m.statements[p]? = some producer) (harray : producer.array = read.array)
    {x y : Nat → Int} (hxy : read.relation.Links x y) (hy : Solves y producer.domain.cons) :
    ∃ d ∈ m.dependencies, d.consumer = c ∧ d.producer = p ∧ d.array = read.array ∧
      d.relation.Links x y := by
  obtain ⟨array, hhoused⟩ := hm.housed producer (List.mem_of_getElem? hproducer)
  obtain ⟨array', hhoused'⟩ := hm.housed consumer (List.mem_of_getElem? hconsumer)
  have hreads := Computation.reads_of_modelled consumer.computation hhoused'.modelled read hread
  obtain ⟨-, -, hlinks⟩ := links_composed hreads hhoused harray
  have hlinked := (hlinks x y).mpr ⟨hxy, hy⟩
  refine ⟨⟨p, c, read.array, read.relation.compose producer.write.reverse⟩,
    (mem_dependencies hm).mpr ⟨consumer, read, producer, hconsumer, hread, hproducer, harray, rfl, rfl,
      ?_⟩, rfl, rfl, rfl, hlinked⟩
  exact PointSet.isEmpty_of_has (Relation.regular_pairs.mpr Relation.regular_compose)
    (Relation.links_iff_has.mp hlinked)

/-! ### Readings -/

end Built

end Model

/-- A computation reads an element through an access, for some values of the reduction variables
around it. -/
inductive Computation.Reading :
    Computation → List Int → (number : Nat) → (type : ValueType) → (access : Access) → Prop
  | here {number : Nat} {type : ValueType} {access : Access} :
      Reading (.read number type access) [] number type access
  | operand {op : Op} {result : ValueType} {operands : List Computation} {c : Computation} {r : List Int}
      {number : Nat} {type : ValueType} {access : Access} (hc : c ∈ operands)
      (h : Reading c r number type access) : Reading (.apply op result operands) r number type access
  | body {op : Op} {result : ValueType} {dim : Nat} {lower upper : Int} {c : Computation} {x : Int}
      {r : List Int} {number : Nat} {type : ValueType} {access : Access} (hlow : lower ≤ x)
      (hhigh : x ≤ upper) (h : Reading c r number type access) :
      Reading (.reduce op result dim lower upper c) (x :: r) number type access

namespace Computation

variable {number : Nat} {type : ValueType} {access : Access} {r : List Int} {c : Computation}

private theorem mem_readsOf {cs : List Computation} {read : Read} (hc : c ∈ cs) (hread : read ∈ c.reads) :
    read ∈ readsOf cs := by
  induction cs with
  | nil => simp at hc
  | cons c' cs ih =>
    rw [readsOf, List.mem_append]
    rcases List.mem_cons.mp hc with rfl | hc
    · exact .inl hread
    · exact .inr (ih hc)

theorem Reading.mem_reads (h : Reading c r number type access) : ⟨number, access.relation⟩ ∈ c.reads := by
  induction h with
  | here => simp [reads]
  | operand hc _ ih =>
    rw [reads]
    exact mem_readsOf hc ih
  | body _ _ _ ih =>
    rw [reads]
    exact ih

private theorem modelled_of_mem {arrays : List DataArray} {f : Frame} {cs : List Computation}
    (h : ModelledAll arrays f cs) (hc : c ∈ cs) : c.Modelled arrays f := by
  induction cs with
  | nil => simp at hc
  | cons c' cs ih =>
    rw [ModelledAll] at h
    rcases List.mem_cons.mp hc with rfl | hc
    · exact h.1
    · exact ih h.2 hc

/-- Where a read is made, the reduction variables around it are within their bounds. -/
theorem Reading.framed {arrays : List DataArray} {f : Frame} (h : Reading c r number type access)
    (hmodelled : c.Modelled arrays f) {outer : List Int} (hlength : outer.length = f.reductions.length)
    (hranges : f.Ranges (valuation outer)) :
    ∃ (g : Frame) (array : DataArray), g.domain = f.domain ∧ arrays[number]? = some array ∧
      access.pattern.length = array.rank ∧ (∀ a ∈ access.pattern, a.vars = g.vars) ∧
      access.relation = Access.relate g array.name access.pattern ∧
      array.domain.cons.all (Access.isWithin access.relation.range array.flow) = true ∧
      g.Ranges (valuation (outer ++ r)) := by
  induction h generalizing f outer with
  | here =>
    rw [Modelled] at hmodelled
    obtain ⟨array, harray, hrank, hvars, hrelation, hwithin⟩ := hmodelled
    rw [List.append_nil]
    exact ⟨f, array, rfl, harray, hrank, hvars, hrelation, hwithin, hranges⟩
  | operand hc _ ih =>
    rw [Modelled] at hmodelled
    exact ih (modelled_of_mem hmodelled hc) hlength hranges
  | @body _ _ _ lower upper _ x r _ _ _ hlow hhigh _ ih =>
    rw [Modelled] at hmodelled
    have hassoc : outer ++ x :: r = outer ++ [x] ++ r := by simp
    rw [hassoc]
    exact ih hmodelled (by simp [Frame.within, hlength]) (hranges.within hlength hlow hhigh)

end Computation

theorem valuation_append (x r : List Int) :
    valuation (x ++ r) = Relation.joined x.length (valuation x) (valuation r) := by
  funext i
  simp only [valuation, Relation.joined, List.getD_eq_getElem?_getD, List.getElem?_append]
  split <;> rfl

namespace Model

namespace Built

variable {m : Model}

/-- What is read at a point is linked to it by the relation of the access. -/
theorem links_of_reading (hm : m.Built) {consumer : Statement} {number : Nat} {type : ValueType}
    {access : Access} {r : List Int} (hconsumer : consumer ∈ m.statements)
    (hreading : consumer.computation.Reading r number type access) {x : List Int}
    (hlength : x.length = consumer.dims) (hx : Solves (valuation x) consumer.domain.cons) :
    access.relation.Links (valuation x) (valuation (access.pattern.map (·.eval (x ++ r)))) := by
  obtain ⟨home, hhoused⟩ := hm.housed consumer hconsumer
  obtain ⟨g, array, hdomain, -, -, hvars, hrelation, -, hranges⟩ :=
    hreading.framed hhoused.modelled (show ([] : List Int).length = _ from rfl) (by simp [Frame.Ranges])
  have hregular : g.domain.Regular := by rw [hdomain]; exact hhoused.regular
  rw [hrelation, Access.links_relate hregular hvars]
  refine ⟨?_, valuation r, hranges, fun o ho => ?_⟩
  · rw [hdomain]
    exact PointSet.has_of_solves hx
  · have hdims : g.dims = x.length := by
      rw [Frame.dims, hdomain, hlength]
      rfl
    rw [hdims, ← valuation_append, ← Affine.eval_eq_valueAt]
    simp [valuation, ho]

/-- An element that is read depends on the statement that writes it. -/
theorem dependency_of_reading (hm : m.Built) {c p number : Nat} {consumer producer : Statement}
    {type : ValueType} {access : Access} {r : List Int} (hconsumer : m.statements[c]? = some consumer)
    (hreading : consumer.computation.Reading r number type access)
    (hproducer : m.statements[p]? = some producer) (harray : producer.array = number) {x : List Int}
    (hlength : x.length = consumer.dims) (hx : Solves (valuation x) consumer.domain.cons)
    (hy : Solves (valuation (access.pattern.map (·.eval (x ++ r)))) producer.domain.cons) :
    ∃ d ∈ m.dependencies, d.consumer = c ∧ d.producer = p ∧ d.array = number ∧
      d.relation.Links (valuation x) (valuation (access.pattern.map (·.eval (x ++ r)))) :=
  exists_dependency hm hconsumer hreading.mem_reads hproducer harray
    (hm.links_of_reading (List.mem_of_getElem? hconsumer) hreading hlength hx) hy

/-! ### Writers -/

/-- No element is written by two statements. -/
theorem pairwise_disjoint (hm : m.Built) :
    m.statements.Pairwise fun s t => s.array = t.array →
      ∀ p : Nat → Int, Solves p s.domain.cons → ¬ Solves p t.domain.cons := by
  refine List.Pairwise.imp_of_mem (R := fun s t => s.array = t.array →
    (t.domain.intersect s.domain).isIntegerEmpty = true) ?_ ?_
  · intro s t hs ht hempty harray p hps hpt
    obtain ⟨array, hs⟩ := hm.housed s hs
    obtain ⟨array', ht⟩ := hm.housed t ht
    have hsame : array = array' := hs.unique harray ht.home
    refine PointSet.not_has_of_isIntegerEmpty (PointSet.regular_intersect ht.regular)
      (hempty harray) p ((PointSet.has_intersect ht.regular hs.regular ?_).mpr
        ⟨PointSet.has_of_solves hpt, PointSet.has_of_solves hps⟩)
    rw [hs.dims, ht.dims, hsame]
  · rw [List.pairwise_iff_getElem]
    intro i j hi hj hij harray
    obtain ⟨array, hhoused⟩ := hm.housed m.statements[i] (List.getElem_mem hi)
    have hlength := (List.getElem?_eq_some_iff.mp hhoused.home).1
    have hfiltered := List.pairwise_filter.mp (pairwise_of_checkOverlaps hm.unshared hlength)
    exact List.pairwise_iff_getElem.mp hfiltered i j hi hj hij (by simp) (by simp [harray])

end Built

end Model

end StreamLoom
