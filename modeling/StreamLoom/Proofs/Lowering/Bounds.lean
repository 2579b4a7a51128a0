import StreamLoom.Proofs.Lowering.Arrangement
import StreamLoom.Proofs.Lowering.Position

/-!
# Every access is in range

What a statement refers to is within the bounds of its target, and so is where a machine looks for it. The
position of an element of a finite input is below the number of its elements because each index is below
its extent. An offset into a buffer is a remainder, and all that it takes is that the buffer is not empty.
It holds at least one slice, and a slice has room for one element at least, the one that is accessed.
-/

namespace StreamLoom

attribute [local instance] Arithmetic.exact

open StreamLoom.System (Solves Over)

namespace Allocation

variable {m : Model} {s : Schedule} {a : Allocation} {number : Nat} {array : DataArray}

theorem length_pos_of_admits (hm : m.Built) (hs : s.Consistent m)
    (hsingle : Extent.Single array.extents) (ha : (allocate m s).execute.1 = .ok a)
    (harray : m.arrays[number]? = some array) {y : List Int}
    (hy : Extent.Admits array.extents array.flow y) :
    ∃ allocated, a.model.arrays[number]? = some allocated ∧
      0 < (Lowering.layoutOf allocated).length := by
  obtain ⟨slices, outlives, hslices, hallocated, -⟩ := exists_buffer ha harray
  refine ⟨_, hallocated, ?_⟩
  cases hc : carrier m s array number with
  | none =>
    have hlaid : Lowering.Laid { array with buffer := buffer m s array number slices outlives } :=
      laid_buffer slices outlives
    have hscalar := hlaid.scalar (rank_of_carrier_none hc)
    omega
  | some c =>
    obtain ⟨z, hz, -⟩ := hy.exists_solves (fun d hd => DataArray.extent_of_flow hd) array.name
    have hcircular := circular_buffer hm hs harray hc hslices outlives hz
    have hwithin : ∀ d, d < array.rank → d ≠ c → 0 ≤ valuation (coordinates array.rank z) d ∧
        valuation (coordinates array.rank z) d < Extent.code (array.extents[d]?).join := by
      intro d hd hne
      rw [valuation_coordinates hd]
      exact within_code hsingle hc hz d hd hne
    exact hcircular.length_pos hwithin

end Allocation

namespace Lowering

/-! ### Offsets -/

/-- A machine fetches what a statement takes from finite inputs at positions that they have. -/
def FetchesWithin (model : Model) (st : Statement) (x : List Int) : Prop :=
  ∀ {r : List Int} {number : Nat} {type : ValueType} {access : Access},
    st.computation.Contains (.input number type access) r → ∀ {i : Input},
    model.inputs[number]? = some i → i.isStream = false → ∃ position, 0 ≤ position ∧
      position < Arithmetic.product (i.extents.map Extent.code) ∧
      ∀ {V : Type} (I : Interpretation V) (σ : Machine V) (steady : Bool),
        Gives (input model I.target ⟨st, (x ++ r).map I.ofInt, steady⟩ number access.pattern) σ
          (I.input number σ.steady σ.period position)

/-- A machine finds an offset within the buffer of an array for the index that it arrives at. -/
def FindsWithin (model : Model) (number : Nat) {V : Type} (I : Interpretation V) (σ : Machine V)
    (index : Running V (List V)) : Prop :=
  ∃ array slot, model.arrays[number]? = some array ∧ 0 ≤ slot ∧ slot < array.buffer.length ∧
    Gives (index >>= bufferOffset model I.target number) σ (I.ofInt slot)

/-- A machine looks for what a statement writes and reads within the buffers. -/
structure StaysWithin (model : Model) (st : Statement) (x : List Int) : Prop where
  write {V : Type} (I : Interpretation V) (σ : Machine V) :
    FindsWithin model st.array I σ (pure (x.map I.ofInt))
  read {r : List Int} {number : Nat} {type : ValueType} {access : Access}
    (h : st.computation.Contains (.read number type access) r) {V : Type} (I : Interpretation V)
    (σ : Machine V) :
    FindsWithin model number I σ (mapped I.target ((x ++ r).map I.ofInt) access.pattern)

variable {m : Model} {st : Statement} {x : List Int}

theorem fetchesWithin_of_bounded {model : Model} (hinputs : model.inputs = m.inputs) (h : m.Bounded st x) :
    FetchesWithin model st x := by
  intro r number type access hpart i hi hfinite
  rw [hinputs] at hi
  obtain ⟨i', hi', hadmits⟩ := h.input hpart
  obtain rfl := Option.some.inj (hi.symm.trans hi')
  obtain ⟨hlow, hhigh⟩ := positionIn_bounds hfinite hadmits
  refine ⟨_, hlow, hhigh, fun I σ steady => ?_⟩
  have hlength : access.pattern.length = i.extents.length := by
    rw [← hadmits.length, List.length_map]
  exact gives_input (by rw [hinputs, hi]) hlength st (x ++ r) steady

theorem staysWithin_of_bounded {s : Schedule} {a : Allocation} (hm : m.Built) (hs : s.Consistent m)
    (hsingle : ∀ array ∈ m.arrays, Extent.Single array.extents)
    (ha : (Allocation.allocate m s).execute.1 = .ok a) (h : m.Bounded st x) :
    StaysWithin a.model st x := by
  -- An index within bounds shows that the array has elements, whatever slot it leads to.
  have hfinds {number : Nat} {array : DataArray} (harray : m.arrays[number]? = some array) {y index : List Int}
      (hy : Extent.Admits array.extents array.flow y) {V : Type} (I : Interpretation V) (σ : Machine V)
      {part : Running V (List V)} (hpart : Gives part σ (index.map I.ofInt)) :
      FindsWithin a.model number I σ part := by
    obtain ⟨allocated, hallocated, hpos⟩ := Allocation.length_pos_of_admits hm hs
      (hsingle array (List.mem_of_getElem? harray)) ha harray hy
    obtain ⟨slot, hlow, hhigh, hgives⟩ := exists_slot (I := I) (σ := σ) hallocated hpos index
    exact ⟨allocated, slot, hallocated, hlow, hhigh, hpart.bind hgives⟩
  constructor
  · intro V I σ
    obtain ⟨array, harray, hadmits⟩ := h.write
    exact hfinds harray hadmits.relax I σ (.pure _)
  · intro r number type access hpart V I σ
    obtain ⟨array, harray, hadmits⟩ := h.read hpart
    exact hfinds harray hadmits I σ (gives_mapped (x ++ r) access.pattern)

/-- Every access is in range: the index is within the declared bounds, and so is the position of what is
fetched from a finite input and, once storage is allocated, the offset into a buffer. -/
theorem accesses_in_range {program : Program} (hm : (Model.build program).execute.1 = .ok m)
    (hst : st ∈ m.statements) (hx : st.domain.Includes x) :
    m.Bounded st x ∧ FetchesWithin m st x ∧
      ∀ {library : Library} {files : List SourceFile} {options : ScheduleOptions} {s : Schedule}
        {a : Allocation}, (Program.read library files).result = .ok program →
        (Schedule.synthesize m options).execute.1 = .ok s →
        (Allocation.allocate m s).execute.1 = .ok a →
        FetchesWithin a.model st x ∧ StaysWithin a.model st x := by
  have hbounded := Model.bounded_of_build hm hst hx
  refine ⟨hbounded, fetchesWithin_of_bounded rfl hbounded, ?_⟩
  intro library files options s a hread hs ha
  have hbuilt := Model.built_of_build hm
  have hconsistent := Schedule.consistent_of_synthesize hbuilt.proper hs
  have hsingle := Model.single_of_build (Program.single_of_read hread) hm
  exact ⟨fetchesWithin_of_bounded (Allocation.inputs_eq ha) hbounded,
    staysWithin_of_bounded hbuilt hconsistent hsingle ha hbounded⟩

/-- The sums of a table, added up over and over. -/
def accumulated : List SourceFile :=
  [⟨"", ("(input x int [3]) (array a int [inf] (pattern [0] 0)" ++
    " (pattern [i] (when (> i 0)) (+ (a (- i 1)) (reduce + [j 0 2] (x j)))))").toList⟩]

theorem accesses_in_range_accumulated : ∃ program m st s a,
    (Program.read ⟨⟨"", []⟩, []⟩ accumulated).result = .ok program ∧
    (Model.build program).execute.1 = .ok m ∧ st ∈ m.statements ∧ st.domain.Includes [4] ∧
    (Schedule.synthesize m ⟨true, true⟩).execute.1 = .ok s ∧
    (Allocation.allocate m s).execute.1 = .ok a ∧ m.Bounded st [4] ∧ FetchesWithin a.model st [4] ∧
    StaysWithin a.model st [4] := by
  have hrun : (Outcome.passes (Program.read ⟨⟨"", []⟩, []⟩ accumulated).result fun program =>
      Outcome.passes (Model.build program).execute.1 fun m =>
      Outcome.passes (Schedule.synthesize m ⟨true, true⟩).execute.1 fun s =>
      Outcome.passes (Allocation.allocate m s).execute.1 fun _ => m.statements.any fun st =>
        decide (1 = st.domain.dims ∧ 0 = st.domain.locals ∧ ∀ c ∈ st.domain.cons, c.holds [4] = true)) =
          true := by
    decide +kernel
  obtain ⟨program, hread, hrun⟩ := Outcome.exists_of_passes hrun
  obtain ⟨m, hm, hrun⟩ := Outcome.exists_of_passes hrun
  obtain ⟨s, hs, hrun⟩ := Outcome.exists_of_passes hrun
  obtain ⟨a, ha, hrun⟩ := Outcome.exists_of_passes hrun
  obtain ⟨st, hst, hrun⟩ := List.any_eq_true.mp hrun
  obtain ⟨hdims, hlocals, hholds⟩ := of_decide_eq_true hrun
  have hx : st.domain.Includes [4] := ⟨hdims, [], hlocals, hholds⟩
  obtain ⟨hbounded, -, hlowered⟩ := accesses_in_range hm hst hx
  obtain ⟨hfetches, hstays⟩ := hlowered hread hs ha
  exact ⟨program, m, st, s, a, hread, hm, hst, hx, hs, ha, hbounded, hfetches, hstays⟩

end Lowering

end StreamLoom
