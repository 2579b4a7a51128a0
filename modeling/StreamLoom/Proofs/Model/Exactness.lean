import StreamLoom.Proofs.Model.Dependency
import StreamLoom.Proofs.Relation.Algebra

/-!
# Dependencies are exact

The relation of an access is made for the frame around it, with one local for each reduction, while a
computation reads with one value for each reduction that it is inside of. Walking down to an access
turns the one into the other, and gives that a dependency relates precisely what is read to what is
written.
-/

namespace StreamLoom

attribute [local instance] Arithmetic.exact

open StreamLoom.System (Solves Over)

/-! ### From a relation back to a reading -/

namespace Computation

/-- A read inside of a frame comes from an access. Values within the bounds of all reductions around
that access make a reading, of which the last values belong to the reductions inside of the frame. -/
structure Source (arrays : List DataArray) (f : Frame) (c : Computation) (read : Read) where
  frame : Frame
  array : DataArray
  type : ValueType
  access : Access
  depth : Nat
  domain : frame.domain = f.domain
  home : arrays[read.array]? = some array
  rank : access.pattern.length = array.rank
  vars : ∀ a ∈ access.pattern, a.vars = frame.vars
  relation : read.relation = Access.relate frame array.name access.pattern
  outer : f.reductions <+: frame.reductions
  depths : frame.reductions.length = f.reductions.length + depth
  reading : ∀ w : Nat → Int, frame.Ranges w →
    c.Reading ((List.range' f.reductions.length depth).map w) read.array type access

variable {arrays : List DataArray} {f : Frame}

/-- The same access, seen from an operation around it. -/
private theorem Source.operand {c : Computation} {op : Op} {result : ValueType}
    {operands : List Computation} {read : Read} (source : Source arrays f c read) (hc : c ∈ operands) :
    Nonempty (Source arrays f (.apply op result operands) read) :=
  ⟨{ source with reading := fun w hw => .operand hc (source.reading w hw) }⟩

/-- The same access, seen from the reduction around it, which has the first of the values. -/
private theorem Source.body {c : Computation} {op : Op} {result : ValueType} {dim : Nat}
    {lower upper : Int} {read : Read} (source : Source arrays (f.within lower upper) c read) :
    Nonempty (Source arrays f (.reduce op result dim lower upper c) read) := by
  have hdepths := source.depths
  have hget : source.frame.reductions[f.reductions.length]? = some (lower, upper) := by
    obtain ⟨inner, hinner⟩ := source.outer
    simp [← hinner, Frame.within]
  simp only [Frame.within, List.length_append, List.length_singleton] at hdepths
  refine ⟨{ source with
    depth := source.depth + 1
    outer := (List.prefix_append _ _).trans source.outer
    depths := by omega
    reading := fun w hw => ?_ }⟩
  obtain ⟨hlow, hhigh⟩ := hw _ _ _ hget
  have hreading := source.reading w hw
  simp only [Frame.within, List.length_append, List.length_singleton] at hreading
  rw [List.range'_succ, List.map_cons]
  exact .body hlow hhigh hreading

mutual

theorem exists_source : (c : Computation) → {f : Frame} → c.Modelled arrays f →
    ∀ read ∈ c.reads, Nonempty (Source arrays f c read)
  | .constant _, _, _ => by simp [reads]
  | .iterator _, _, _ => by simp [reads]
  | .input .., _, _ => by simp [reads]
  | .apply op result operands, f, h => by
    rw [Modelled] at h
    intro read hread
    rw [reads] at hread
    obtain ⟨c, hc, ⟨source⟩⟩ := exists_source_of_mem operands h read hread
    exact source.operand hc
  | .read number type access, f, h => by
    rw [Modelled] at h
    obtain ⟨array, harray, hrank, hvars, hrelation, -⟩ := h
    intro read hread
    obtain rfl : read = ⟨number, access.relation⟩ := by simpa [reads] using hread
    exact ⟨f, array, type, access, 0, rfl, harray, hrank, hvars, hrelation, List.prefix_rfl, rfl,
      fun _ _ => .here⟩
  | .reduce op result dim lower upper body, f, h => by
    rw [Modelled] at h
    intro read hread
    rw [reads] at hread
    obtain ⟨source⟩ := exists_source body h read hread
    exact source.body

theorem exists_source_of_mem : (cs : List Computation) → {f : Frame} → ModelledAll arrays f cs →
    ∀ read ∈ readsOf cs, ∃ c ∈ cs, Nonempty (Source arrays f c read)
  | [], _, _ => by simp [readsOf]
  | c :: rest, f, h => by
    rw [ModelledAll] at h
    intro read hread
    rw [readsOf] at hread
    rcases List.mem_append.mp hread with hread | hread
    · exact ⟨c, List.mem_cons_self, exists_source c h.1 read hread⟩
    · obtain ⟨c', hc', hsource⟩ := exists_source_of_mem rest h.2 read hread
      exact ⟨c', List.mem_cons_of_mem c hc', hsource⟩

end

end Computation

namespace Model

variable {m : Model} {consumer producer : Statement}

/-- Whatever the relation of a read links to a point is read at that point. -/
private theorem Built.reading_of_links (hm : m.Built) (hconsumer : consumer ∈ m.statements) {read : Read}
    (hread : read ∈ consumer.reads) {x y : List Int} (hx : x.length = consumer.dims)
    (hy : y.length = read.relation.outputs)
    (hxy : read.relation.Links (valuation x) (valuation y)) :
    consumer.domain.Has (valuation x) ∧ ∃ r type access,
      consumer.computation.Reading r read.array type access ∧
        access.pattern.map (·.eval (x ++ r)) = y := by
  obtain ⟨home, hhoused⟩ := hm.housed consumer hconsumer
  obtain ⟨source⟩ := Computation.exists_source consumer.computation hhoused.modelled read hread
  have hregular : source.frame.domain.Regular := by rw [source.domain]; exact hhoused.regular
  rw [source.relation, Access.links_relate hregular source.vars, source.domain] at hxy
  obtain ⟨hdomain, w, hranges, hindex⟩ := hxy
  have hdims : source.frame.dims = x.length := by
    rw [Frame.dims, source.domain, hx]
    rfl
  rw [hdims] at hindex
  have hlocals : source.depth = source.frame.reductions.length := by simpa using source.depths.symm
  have hrank : source.access.pattern.length = y.length := by
    rw [hy, source.relation, Access.outputs_relate]
  have hreading := source.reading w hranges
  rw [List.length_nil, ← List.range_eq_range'] at hreading
  refine ⟨hdomain, coordinates source.depth w, source.type, source.access, hreading,
    ext_of_valuation (by simpa using hrank) fun o ho => ?_⟩
  have ho' : o < source.access.pattern.length := by omega
  have hvalue : source.access.pattern[o].eval (x ++ coordinates source.depth w) = valuation y o := by
    rw [hindex o ho', Affine.eval_eq_valueAt, valuation_append]
    have hvars := source.vars _ (List.getElem_mem ho')
    rw [Frame.vars, hdims, ← hlocals] at hvars
    apply Affine.valueAt_congr_of_lt hvars.le
    intro i hi
    simp only [Relation.joined]
    split
    · rfl
    · exact valuation_coordinates (by omega) w
  rw [← hvalue]
  simp [valuation, ho']

/-- Both ends of a dependency are in their domains, and the one is read at the other. -/
private theorem Built.reading_of_dependency (hm : m.Built) {d : Dependency} (hd : d ∈ m.dependencies)
    (hconsumer : m.statements[d.consumer]? = some consumer)
    (hproducer : m.statements[d.producer]? = some producer) {x y : List Int}
    (hxy : d.relation.Relates x y) :
    consumer.domain.Includes x ∧ producer.domain.Includes y ∧ ∃ r type access,
      consumer.computation.Reading r producer.array type access ∧
        access.pattern.map (·.eval (x ++ r)) = y := by
  obtain ⟨consumer', read, producer', hconsumer', hread, hproducer', harray, -, hrelation, -⟩ :=
    (mem_dependencies hm).mp hd
  obtain rfl : consumer = consumer' := Option.some.inj (hconsumer.symm.trans hconsumer')
  obtain rfl : producer = producer' := Option.some.inj (hproducer.symm.trans hproducer')
  have hmem := List.mem_of_getElem? hconsumer
  obtain ⟨home, hhoused⟩ := hm.housed consumer hmem
  obtain ⟨array, hhoused'⟩ := hm.housed producer (List.mem_of_getElem? hproducer)
  have hreads := Computation.reads_of_modelled consumer.computation hhoused.modelled read hread
  obtain ⟨hinputs, -, hlinks⟩ := links_composed hreads hhoused' harray
  rw [hrelation, Relation.relates_iff Relation.regular_compose, hlinks] at hxy
  obtain ⟨hx, hy, hxy, hdomain⟩ := hxy
  have hrank : y.length = array.rank := by
    rw [hy, hhoused'.write]
    rfl
  have houtputs : read.relation.outputs = array.rank := by
    obtain ⟨f, array', pattern, -, hget, hlength, -, hrelate⟩ := hreads
    obtain rfl := hhoused'.unique harray hget
    rw [hrelate, Access.outputs_relate, hlength]
  obtain ⟨hin, hreading⟩ := reading_of_links hm hmem hread (hx.trans hinputs) (hrank.trans houtputs.symm)
    hxy
  rw [PointSet.includes_iff hhoused.regular, PointSet.includes_iff hhoused'.regular, harray]
  exact ⟨⟨hx.trans hinputs, hin⟩, ⟨hrank.trans hhoused'.dims.symm, PointSet.has_of_solves hdomain⟩,
    hreading⟩

private theorem relates_write {arrays : List DataArray} {s : Statement} {array : DataArray}
    (hs : s.Housed arrays array) (x y : List Int) :
    s.write.Relates x y ↔ x = y ∧ s.domain.Includes x := by
  rw [hs.write, Relation.relates_iff Statement.regular_writing, Statement.inputs_writing,
    Statement.outputs_writing, Statement.links_writing hs.regular hs.dims,
    PointSet.includes_iff hs.regular, hs.dims]
  constructor
  · rintro ⟨hx, hy, heq, hdomain⟩
    exact ⟨ext_of_valuation (hx.trans hy.symm) fun i hi => (heq i (by omega)).symm, hx, hdomain⟩
  · rintro ⟨rfl, hx, hdomain⟩
    exact ⟨hx, hx, fun _ _ => rfl, hdomain⟩

/-- A dependency relates a point of its consumer to the points of its producer that write what is read
there, and each statement writes the elements of its domain. -/
theorem depends_iff_reads {program : Program} (hm : (build program).execute.1 = .ok m) {c p : Nat}
    (hconsumer : m.statements[c]? = some consumer) (hproducer : m.statements[p]? = some producer)
    (x y : List Int) :
    ((∃ d ∈ m.dependencies, d.producer = p ∧ d.consumer = c ∧ d.relation.Relates x y) ↔
      consumer.domain.Includes x ∧ producer.domain.Includes y ∧ ∃ r type access,
        consumer.computation.Reading r producer.array type access ∧
          access.pattern.map (·.eval (x ++ r)) = y) ∧
    (consumer.write.Relates x y ↔ x = y ∧ consumer.domain.Includes x) := by
  have hbuilt := built_of_build hm
  obtain ⟨home, hhoused⟩ := hbuilt.housed consumer (List.mem_of_getElem? hconsumer)
  obtain ⟨array, hhoused'⟩ := hbuilt.housed producer (List.mem_of_getElem? hproducer)
  refine ⟨⟨?_, ?_⟩, relates_write hhoused x y⟩
  · rintro ⟨d, hd, rfl, rfl, hxy⟩
    exact hbuilt.reading_of_dependency hd hconsumer hproducer hxy
  · rintro ⟨hx, hy, r, type, access, hreading, rfl⟩
    rw [PointSet.includes_iff hhoused.regular, PointSet.has_iff_solves hhoused.regular hhoused.locals]
      at hx
    rw [PointSet.includes_iff hhoused'.regular,
      PointSet.has_iff_solves hhoused'.regular hhoused'.locals] at hy
    obtain ⟨d, hd, rfl, rfl, -, hlinks⟩ :=
      hbuilt.dependency_of_reading hconsumer hreading hproducer rfl hx.1 hx.2 hy.2
    obtain ⟨producer', consumer', hjoins⟩ := hbuilt.joins hd
    obtain rfl := Option.some.inj (hconsumer.symm.trans hjoins.reads)
    obtain rfl := Option.some.inj (hproducer.symm.trans hjoins.writes)
    exact ⟨d, hd, rfl, rfl, (Relation.relates_iff hjoins.regular).mpr
      ⟨hx.1.trans hjoins.inputs.symm, hy.1.trans hjoins.outputs.symm, hlinks⟩⟩

end Model

/-- The naturals, and the sum of each with the one before it. -/
def Program.pairSums : Program where
  identifiers := [{
    name := "a"
    origin := ⟨.unknown, .origin⟩
    type := .int
    declared := true
    extents := [none]
    patterns := [⟨⟨.unknown, .origin⟩, [.var "i"], none, .iterator none (.ofDim 0)⟩] }, {
    name := "b"
    origin := ⟨.unknown, .origin⟩
    type := .int
    declared := true
    extents := [none]
    patterns := [⟨⟨.unknown, .origin⟩, [.var "i"], none,
      .reduce none .add 1 0 1 (.element none 0
        [.apply none .subtract [.iterator none (.ofDim 0), .iterator none (.ofDim 1)]])⟩] }]

/-- The fourth sum is made of the third natural, among others. -/
theorem Model.depends_iff_reads_pairSums : ∃ m consumer producer, (build .pairSums).execute.1 = .ok m ∧
    m.statements[1]? = some consumer ∧ m.statements[0]? = some producer ∧
    (∃ d ∈ m.dependencies, d.producer = 0 ∧ d.consumer = 1 ∧ d.relation.Relates [3] [2]) ∧
    producer.domain.Includes [2] ∧ ∃ r type access,
      consumer.computation.Reading r producer.array type access ∧
        access.pattern.map (·.eval ([3] ++ r)) = [2] := by
  have hrun : (Outcome.passes (build .pairSums).execute.1 fun m =>
      decide (m.statements.length = 2) && m.dependencies.any fun d =>
        decide (d.producer = 0 ∧ d.consumer = 1 ∧ 1 = d.relation.inputs ∧ 1 = d.relation.outputs ∧
          0 = d.relation.locals ∧ ∀ c ∈ d.relation.cons, c.holds [3, 2] = true)) = true := by
    decide +kernel
  obtain ⟨m, hm, hrun⟩ := Outcome.exists_of_passes hrun
  obtain ⟨hlength, hany⟩ := Bool.and_eq_true_iff.mp hrun
  have hstatements : m.statements.length = 2 := of_decide_eq_true hlength
  obtain ⟨d, hd, hrun⟩ := List.any_eq_true.mp hany
  obtain ⟨hproducer, hconsumer, hinputs, houtputs, hlocals, hholds⟩ := of_decide_eq_true hrun
  have hxy : d.relation.Relates [3] [2] := ⟨hinputs, houtputs, [], hlocals, hholds⟩
  have hdepends : ∃ d ∈ m.dependencies, d.producer = 0 ∧ d.consumer = 1 ∧ d.relation.Relates [3] [2] :=
    ⟨d, hd, hproducer, hconsumer, hxy⟩
  have hget : m.statements[1]? = some m.statements[1] := List.getElem?_eq_getElem (by omega)
  have hget' : m.statements[0]? = some m.statements[0] := List.getElem?_eq_getElem (by omega)
  obtain ⟨-, hin, hreading⟩ := (depends_iff_reads hm hget hget' [3] [2]).1.mp hdepends
  exact ⟨m, _, _, hm, hget, hget', hdepends, hin, hreading⟩

end StreamLoom
