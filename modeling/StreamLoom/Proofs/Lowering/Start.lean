import StreamLoom.Proofs.Lowering.Reads
import StreamLoom.Proofs.Model.Bounds

/-!
# Reads before the start of a stream

A stream may be read at indices before its first element, and such a read is part of no dependency. It
finds what its slot held at the start, as long as nothing has been stored into that slot. A slot is
shared by the elements that are a whole number of buffers apart along the stream, so that none of them has
been stored while the stream has not come a whole buffer further than the read.
-/

namespace StreamLoom

attribute [local instance] Arithmetic.exact

open StreamLoom.System (Solves Over)
open StreamLoom.Nest (Visit translated)

namespace Lowering

variable {V : Type} {I : Interpretation V} {config : Config} {library : Library} {files : List SourceFile}
  {m : Model} {c : Compilation} {σ : Machine V} {steady : Bool} {v : Visit} {t : List Int}

/-- The elements that have been stored are in the domain of their array. -/
theorem Arrives.solves_stored (hc : c.Staged config library files m) (h : Arrives I m c σ steady v t)
    {e : Stored V} (he : e ∈ σ.log) {array : DataArray} (harray : m.arrays[e.array]? = some array) :
    e.point.length = array.rank ∧ Solves (valuation e.point) array.domain.cons := by
  obtain ⟨points, rest, htracks⟩ := h.tracks
  obtain ⟨st, -, hst, hstarray, -, -⟩ := htracks.logged e he
  rw [hc.statements_eq] at hst
  obtain ⟨u, hu, -⟩ := (h.precede.mem e.statement e.point).mp (List.mem_map_of_mem he)
  obtain ⟨_, -, hget, -, -, hlength, hsolves⟩ :=
    Execution.exists_of_occurs hc.consistent hc.built.proper hu
  rw [hst, Option.some.injEq] at hget
  rw [← hget] at hlength hsolves
  have hhoused := hc.built.housed_of_get (List.mem_of_getElem? hst) hstarray harray
  exact ⟨hlength.trans hhoused.dims, hhoused.inside _ hsolves⟩

/-- Until a stream is a whole buffer further, the slot of an element before its start is not taken. -/
theorem Arrives.slot_ne_start (hc : c.Staged config library files m) (h : Arrives I m c σ steady v t)
    {reader : Statement} {number : Nat} {type : ValueType} {access : Access} {r y : List Int}
    (hreader : m.statements[v.statement]? = some reader)
    (hreading : reader.computation.Reading r number type access) {array : DataArray}
    (harray : c.model.arrays[number]? = some array) {flow : Nat} (hflow : array.flow = some flow)
    (hy : access.pattern.map
      (·.eval (translated c.schedule σ.period v.statement v.index.tail ++ r)) = y)
    (hbefore : valuation y flow < 0) {e : Stored V} (he : e ∈ σ.log) (hnumber : e.array = number)
    (hnear : valuation e.point flow < valuation y flow + (layoutOf array).slots) :
    e.slot ≠ (layoutOf array).flatten y 0 := by
  have hmem := List.mem_of_getElem? hreader
  obtain ⟨array₀, slices, outlives, hget, hrank, hslices, hallocated⟩ := exists_allocated hc hmem hreading
  have hsingle := hc.single array₀ (List.mem_of_getElem? hget)
  obtain rfl := Option.some.inj (harray.symm.trans hallocated)
  obtain ⟨points, rest, htracks⟩ := h.tracks
  obtain ⟨-, array', -, -, hlogged, hslot⟩ := htracks.logged e he
  rw [hnumber, harray, Option.some.injEq] at hlogged
  rw [hslot, ← hlogged]
  obtain ⟨hlength, hsolves⟩ := h.solves_stored hc he (by rw [hnumber, hget])
  have hinfinite : array₀.extents[flow]? = some none := DataArray.extent_of_flow hflow
  have hcarrier : Allocation.carrier m c.schedule array₀ number = some flow := by
    have hlt : flow < array₀.rank := (List.getElem?_eq_some_iff.mp hinfinite).1
    rw [Allocation.carrier, if_neg (by omega), show array₀.flow = some flow from hflow]
  have hcircular :=
    Allocation.circular_buffer hc.built hc.consistent hget hcarrier hslices outlives hsolves
  have hstored := Allocation.within_code hsingle hcarrier hsolves
  have hread : ∀ d, d < array₀.rank → d ≠ flow →
      0 ≤ valuation y d ∧ valuation y d < Extent.code (array₀.extents[d]?).join := by
    intro d hd hne
    obtain ⟨size, hsize⟩ := Allocation.exists_extent hsingle hcarrier hd hne
    obtain ⟨_, -, hst, -, -, hx, hpoint⟩ :=
      Execution.exists_of_occurs hc.consistent hc.built.proper h.occurs
    rw [hreader, Option.some.injEq] at hst
    rw [← hst] at hx hpoint
    have hadmits := hc.built.admits_of_reading hmem hreading hget hx hpoint
    rw [← hy, hsize]
    refine ⟨hadmits.lower d hd ?_, hadmits.upper d size hsize⟩
    rw [show array₀.flow = some flow from hflow]
    exact fun heq => hne (Option.some.inj heq).symm
  have hnear := lt_of_lt_of_eq hnear (congrArg (valuation y flow + ·) hcircular.slots_eq)
  intro heq
  obtain ⟨hdvd, -⟩ := (hcircular.flatten_eq_flatten_iff hlength (by rw [← hy, List.length_map, hrank])
    hstored hread 0 0).mp heq
  have hstart := (PointSet.solves_box.mp hsolves flow none hinfinite).1
  have hle := Int.le_of_dvd (by omega) hdvd
  omega

/-- A read before the start of a stream finds zero, as long as the access has drifted by whole turns of
the buffer and the stream is not a whole buffer further. -/
theorem read_before_start (hc : (Compilation.compile config library files).execute.1 = .ok c)
    (hσ : σ.Reaches I c steady v) {reader : Statement} {number : Nat} {type : ValueType} {access : Access}
    {r y : List Int} (hreader : c.model.statements[v.statement]? = some reader)
    (hreading : reader.computation.Reading r number type access) {array : DataArray}
    (harray : c.model.arrays[number]? = some array) {flow : Nat} (hflow : array.flow = some flow)
    (hy : access.pattern.map
      (·.eval (translated c.schedule σ.period v.statement v.index.tail ++ r)) = y)
    (hbefore : valuation y flow < 0)
    (hdrift : (layoutOf array).length ∣ σ.period * drift c.schedule v.statement array access)
    (hnear : ∀ e ∈ σ.log, e.array = number →
      valuation e.point flow < valuation y flow + (layoutOf array).slots)
    {σ' : Machine V} (hagrees : σ'.Agrees (σ.entering c.schedule steady v)) :
    Gives (value c.model I.target ⟨reader, (v.index.tail ++ r).map I.ofInt, steady⟩
      (.read number type access)) σ' (I.zero array.type) := by
  obtain ⟨m, hc⟩ := Compilation.staged_of_compile hc
  rw [hc.statements_eq] at hreader
  obtain ⟨t, hat⟩ := hσ.arrives hc
  obtain ⟨points, rest, htracks⟩ := hat.tracks
  have hbelongs := htracks.belongs (σ.period, steady, v) List.mem_cons_self
  have hslot := (hc.arranged.flatten_read_iff hbelongs array access r).mpr hdrift
  have hgives := hat.gives_read hc (List.mem_of_getElem? hreader) hreading harray hagrees
  have huntouched := htracks.retains.untouched number ((layoutOf array).flatten y 0) fun e he hnumber =>
    hat.slot_ne_start hc hreader hreading harray hflow hy hbefore he hnumber (hnear e he hnumber)
  rw [hslot, hy, huntouched] at hgives
  simpa [Machine.initial, harray] using hgives

/-- The second element is computed from one before the start, after the first has been stored. -/
theorem read_before_start_counting : ∃ c σ v reader type access,
    (Compilation.compile {} ⟨⟨"", []⟩, []⟩ counting).execute.1 = .ok c ∧
    Machine.Reaches σ .integers c true v ∧ σ.log.length = 1 ∧
    c.model.statements[v.statement]? = some reader ∧
    reader.computation.Reading [] 0 type access ∧
    access.pattern.map
      (·.eval (translated c.schedule σ.period v.statement v.index.tail ++ [])) = [-1] ∧
    Gives (value c.model Interpretation.integers.target
      ⟨reader, (v.index.tail ++ []).map Interpretation.integers.ofInt, true⟩ (.read 0 type access))
      (σ.entering c.schedule true v) 0 := by
  have hrun : (Outcome.passes (Compilation.compile {} ⟨⟨"", []⟩, []⟩ counting).execute.1 fun c =>
      readsAt c 2 2 fun σ steady v reader number access =>
        decide (steady = true ∧ number = 0 ∧ σ.log.length = 1 ∧ access.pattern.map
          (·.eval (translated c.schedule σ.period v.statement v.index.tail ++ [])) = [-1]) &&
        (c.model.arrays[0]?).any fun array =>
          decide (array.flow = some 0 ∧
            (layoutOf array).length ∣ σ.period * drift c.schedule v.statement array access ∧
            ∀ e ∈ σ.log, e.array = 0 →
              valuation e.point 0 < valuation [-1] 0 + (layoutOf array).slots)) = true := by
    decide +kernel
  obtain ⟨c, hc, hrun⟩ := Outcome.exists_of_passes hrun
  obtain ⟨σ, steady, v, reader, number, type, access, hσ, hreader, hreading, hrun⟩ := exists_of_readsAt hrun
  obtain ⟨hrun, harray⟩ := Bool.and_eq_true_iff.mp hrun
  obtain ⟨rfl, rfl, hlog, hy⟩ := of_decide_eq_true hrun
  obtain ⟨array, hget, harray⟩ := (Option.any_eq_true _ _).mp harray
  obtain ⟨hflow, hdrift, hnear⟩ := of_decide_eq_true harray
  exact ⟨c, σ, v, reader, type, access, hc, hσ, hlog, hreader, hreading, hy,
    read_before_start hc hσ hreader hreading hget hflow hy (by decide) hdrift hnear (.refl _)⟩

end Lowering

end StreamLoom
