import StreamLoom.Proofs.Lowering.Reads
import StreamLoom.Proofs.Model.Bounds

/-!
# Rotation of buffers

A machine never forms the index of an element in a later period. It evaluates an access at the image of the
point in the first period, and adds a phase that every period before has advanced and reduced to the slots of
the buffer. The offset that it finds is that of the element itself in a buffer which is not turned at all,
as long as the access advances by as much in a period as the buffer of its array does. A write always does so.
-/

namespace StreamLoom

attribute [local instance] Arithmetic.exact

open StreamLoom.System (Solves)
open StreamLoom.Nest (translated)

namespace Lowering

variable {V : Type} {I : Interpretation V} {σ : Machine V} {array : DataArray}

/-! ### Phases -/

def phaseAfter (array : DataArray) : Nat → Int
  | 0 => 0
  | k + 1 => (layoutOf array).advance (phaseAfter array k) array.buffer.period

theorem turned_phaseAfter (array : DataArray) (k : Nat) :
    Turned array (phaseAfter array k) (k * array.buffer.period) := by
  induction k with
  | zero => simp [Turned, phaseAfter]
  | succ k ih =>
    have hadvanced := ih.advance array.buffer.period
    rwa [← add_one_mul, ← Nat.cast_succ] at hadvanced

/-- These are the phases of a machine that has been turned as often. -/
theorem phases_turned {m : Model} {number : Nat} (harray : m.arrays[number]? = some array)
    (hσ : σ.phases number = 0) (k : Nat) :
    ((fun σ : Machine V => σ.turned m)^[k] σ).phases number = phaseAfter array k := by
  induction k with
  | zero => exact hσ
  | succ k ih =>
    rw [Function.iterate_succ_apply', Machine.turned]
    simp only [harray, Option.elim_some, ih]
    rfl

/-! ### Accesses that advance with their buffer -/

/-- The storage of an array that has elements. Its buffer turns along the flow, if there is one, and keeps
still otherwise. -/
structure Turning (array : DataArray) : Prop where
  laid : Laid array
  layout : Layout.ofArray? array = .ok (layoutOf array)
  nonempty : (layoutOf array).length ≠ 0
  stride : ∀ d, array.flow = some d → (layoutOf array).strides.getD d 0 = (layoutOf array).slice
  still : array.flow = none → array.buffer.period = 0

theorem Turning.flatten?_eq (h : Turning array) {index : List Int} (hlength : index.length = array.rank)
    (phase : Int) : (layoutOf array).flatten? index phase = .ok ((layoutOf array).flatten index phase) :=
  Layout.flatten?_eq (by simp [layoutOf, Layout.ofBuffer, hlength]) h.nonempty phase

/-- An access to an array whose index along the flow advances by as much in a period of a statement as the buffer
does, and whose other indices do not advance. -/
def Advances (s : Schedule) (i : Nat) (array : DataArray) (access : Access) : Prop :=
  ∀ d row, access.pattern[d]? = some row →
    if array.flow = some d then row.coeff (s.flow i) * s.period i = array.buffer.period
    else row.coeff (s.flow i) = 0

private theorem dot_of_sole {xs ks : List Int} {d : Nat} (h : ∀ j, j ≠ d → valuation xs j = 0) :
    Arithmetic.dot xs ks = valuation xs d * valuation ks d := by
  rw [Affine.dot_eq_linear, Affine.linear_eq_sum]
  refine (Finset.sum_eq_single d (fun j _ hne => ?_) fun hnot => ?_).trans rfl
  · change valuation xs j * _ = 0
    rw [h j hne, zero_mul]
  · have hlength : ¬ d < xs.length := by simpa using hnot
    change valuation xs d * _ = 0
    rw [show valuation xs d = 0 by simp [valuation, hlength], zero_mul]

/-- Such an access does not drift. -/
theorem Advances.drift_eq_zero {s : Schedule} {i : Nat} {access : Access} (h : Advances s i array access)
    (hturning : Turning array) (hlength : access.pattern.length = array.rank) :
    drift s i array access = 0 := by
  have hstill : ∀ d, array.flow ≠ some d → valuation (access.pattern.map (·.coeff (s.flow i))) d = 0 := by
    intro d hne
    cases hrow : access.pattern[d]? with
    | none => simp [valuation, hrow]
    | some row =>
      have hkept := h d row hrow
      rw [if_neg hne] at hkept
      simp [valuation, hrow, hkept]
  rw [drift]
  cases hflow : array.flow with
  | none =>
    rw [dot_of_sole (d := 0) fun j _ => hstill j (by simp [hflow]), hstill 0 (by simp [hflow]),
      hturning.still hflow]
    ring
  | some d =>
    have hd : d < access.pattern.length := by
      rw [hlength]
      exact (List.getElem?_eq_some_iff.mp (DataArray.extent_of_flow hflow)).1
    have hkept := h d _ (List.getElem?_eq_getElem hd)
    rw [if_pos hflow] at hkept
    have hstride : valuation (layoutOf array).strides d = (layoutOf array).slice := hturning.stride d hflow
    have hvalue : valuation (access.pattern.map (·.coeff (s.flow i))) d =
        (access.pattern[d]).coeff (s.flow i) := by
      simp [valuation, hd]
    rw [dot_of_sole (d := d) fun j hne => hstill j (by simpa [hflow] using hne.symm), hvalue, hstride, ← hkept]
    ring

end Lowering

/-! ### Allocated arrays -/

namespace Allocation

variable {m : Model} {s : Schedule} {a : Allocation} {number : Nat} {array : DataArray}

/-- The buffer of an array that has elements is not empty, also where a dimension other than the carrier is
infinite. -/
private theorem length_ne_zero {c : Nat} {b : Buffer} {slots : Int}
    (hb : b.Circular array.rank c slots fun d => Extent.code (array.extents[d]?).join) {y : List Int}
    (hy : Extent.Admits array.extents array.flow y) : (Layout.ofBuffer array.rank b).length ≠ 0 := by
  rw [hb.length_eq, hb.slice_eq]
  refine mul_ne_zero hb.slots.ne' (List.prod_ne_zero fun hzero => ?_)
  obtain ⟨d, hd, hcode⟩ := List.mem_map.mp hzero
  have hlt : d < array.extents.length := (Buffer.mem_others.mp hd).1
  have hget := List.getElem?_eq_getElem hlt
  rw [hget] at hcode
  cases hextent : array.extents[d] with
  | none =>
    rw [hextent] at hcode
    cases hcode
  | some size =>
    rw [hextent] at hget hcode
    obtain rfl : size = 0 := hcode
    have hhigh := hy.upper d 0 hget
    have hlow := hy.lower d hlt fun hflow => by
      rw [DataArray.extent_of_flow hflow] at hget
      cases hget
    omega

theorem turning_of_admits (hm : m.Built) {options : ScheduleOptions}
    (hs : (Schedule.synthesize m options).execute.1 = .ok s) (ha : (allocate m s).execute.1 = .ok a)
    (harray : m.arrays[number]? = some array) {y : List Int}
    (hy : Extent.Admits array.extents array.flow y) :
    ∃ allocated, a.model.arrays[number]? = some allocated ∧ allocated.extents = array.extents ∧
      Lowering.Turning allocated := by
  have hconsistent := Schedule.consistent_of_synthesize hm.proper hs
  obtain ⟨slices, outlives, hslices, hallocated, -⟩ := exists_buffer ha harray
  have hlaid : Lowering.Laid { array with buffer := buffer m s array number slices outlives } :=
    laid_buffer slices outlives
  have hstill : array.flow = none → (buffer m s array number slices outlives).period = 0 := by
    intro hflow
    rw [(buffer_attributes m s array number slices outlives).1, periodOf_eq_zero hm hs harray hflow]
  have hstride : ∀ d, array.flow = some d →
      (Layout.ofBuffer array.rank (buffer m s array number slices outlives)).strides.getD d 0 =
        (Layout.ofBuffer array.rank (buffer m s array number slices outlives)).slice := by
    intro d hflow
    have hlt : d < array.rank := (List.getElem?_eq_some_iff.mp (DataArray.extent_of_flow hflow)).1
    exact stride_buffer (by rw [carrier, if_neg (by omega), hflow]) hlt slices outlives
  refine ⟨_, hallocated, rfl, ?_⟩
  cases hc : carrier m s array number with
  | none =>
    have hrank := rank_of_carrier_none hc
    refine ⟨hlaid, Layout.ofArray?_eq ?_ ?_, ?_, hstride, hstill⟩
    · change (buffer m s array number slices outlives).order.Perm (List.range array.rank)
      rw [hrank]
      simp [buffer, hc]
    · change (buffer m s array number slices outlives).sizes.length = array.rank
      rw [hrank]
      simp [buffer, hc]
    · rw [hlaid.scalar hrank]
      exact one_ne_zero
  | some c =>
    obtain ⟨z, hz, -⟩ := hy.exists_solves (fun d hd => DataArray.extent_of_flow hd) array.name
    have hcircular := circular_buffer hm hconsistent harray hc hslices outlives hz
    exact ⟨hlaid, Buffer.Circular.ofArray?_eq hcircular, length_ne_zero hcircular hy, hstride, hstill⟩

end Allocation

namespace Lowering

variable {V : Type} {I : Interpretation V} {σ : Machine V} {m : Model} {s : Schedule} {a : Allocation}

/-- An offset that a machine finds under turned phases is that under phases which were never reduced. -/
theorem gives_after {model : Model} {number : Nat} {array : DataArray}
    (harray : model.arrays[number]? = some array) (hlaid : Laid array) {k : Nat}
    (hσ : σ.phases number = phaseAfter array k) {index : List Int} (hlength : index.length = array.rank) :
    Gives (bufferOffset model I.target number (index.map I.ofInt)) σ
      (I.ofInt ((layoutOf array).flatten index (k * array.buffer.period))) := by
  refine gives_bufferOffset harray hlaid ?_ (fun hzero => by rw [hzero, mul_zero]) hlength
  rw [hσ]
  exact turned_phaseAfter array k

/-- After any number of periods, a machine finds the offset of an element by its image in the first period. The
offset is that of the element itself in a buffer which was not turned. This holds of what a statement writes,
and of what it reads by accesses that advance with their buffers, for all values of the reduction variables. -/
theorem turned_eq_absolute {program : Program} {options : ScheduleOptions}
    (hm : (Model.build program).execute.1 = .ok m) (hs : (Schedule.synthesize m options).execute.1 = .ok s)
    (ha : (Allocation.allocate m s).execute.1 = .ok a) {i : Nat} {st : Statement}
    (hst : m.statements[i]? = some st) (hsteady : s.isSteady i = true) {x : List Int}
    (hx : st.domain.Includes x) {k : Nat}
    (hσ : ∀ number array, a.model.arrays[number]? = some array → σ.phases number = phaseAfter array k) :
    (∃ array layout slot, a.model.arrays[st.array]? = some array ∧ Layout.ofArray? array = .ok layout ∧
      layout.flatten? x 0 = .ok slot ∧
      Gives (bufferOffset a.model I.target st.array ((translated s (-k) i x).map I.ofInt)) σ (I.ofInt slot)) ∧
    ∀ r number type access, st.computation.Contains (.read number type access) r →
      ∃ array layout slot, a.model.arrays[number]? = some array ∧ Layout.ofArray? array = .ok layout ∧
        layout.flatten? (access.pattern.map (·.eval (x ++ r))) 0 = .ok slot ∧
        (Advances s i array access →
          Gives (mapped I.target ((translated s (-k) i x ++ r).map I.ofInt) access.pattern >>=
            bufferOffset a.model I.target number) σ (I.ofInt slot)) := by
  have hbuilt := Model.built_of_build hm
  have hconsistent := Schedule.consistent_of_synthesize hbuilt.proper hs
  have hbounded := Model.bounded_of_build hm (List.mem_of_getElem? hst) hx
  have hback : translated s k i (translated s (-k) i x) = x := Nest.translated_neg_translated k i x
  obtain ⟨p, hp⟩ := Option.isSome_iff_exists.mp hsteady
  obtain ⟨st', flow, hst', hlate⟩ := hconsistent.late i p hp
  obtain rfl := Option.some.inj (hst.symm.trans hst')
  have hflow : s.flow i = flow := by rw [hconsistent.flows i st hst, hlate.flows, Option.getD_some]
  have hmoved : (translated s (-k) i x).length = st.dims := by
    rw [translated, List.length_modify]
    exact hx.1
  constructor
  · obtain ⟨array, harray, hadmits⟩ := hbounded.write
    obtain ⟨allocated, hallocated, hextents, hturning⟩ :=
      Allocation.turning_of_admits hbuilt hs ha harray hadmits.relax
    have hrank : x.length = allocated.rank := by rw [DataArray.rank, hextents, hadmits.length]
    refine ⟨allocated, _, _, hallocated, hturning.layout, hturning.flatten?_eq hrank 0, ?_⟩
    have hgives := gives_after (I := I) hallocated hturning.laid (hσ _ _ hallocated)
      (show (translated s (-k) i x).length = allocated.rank by rw [hmoved, ← hrank]; exact hx.1.symm)
    have harranged := Allocation.arranged hbuilt hconsistent ha
    rwa [harranged.flatten_translated (Allocation.statements_eq ha ▸ hst) hlate hflow hallocated hmoved,
      hback] at hgives
  · intro r number type access hcontains
    obtain ⟨array, harray, hadmits⟩ := hbounded.read hcontains
    obtain ⟨allocated, hallocated, hextents, hturning⟩ :=
      Allocation.turning_of_admits hbuilt hs ha harray hadmits
    have hrank : access.pattern.length = allocated.rank := by
      rw [DataArray.rank, hextents, ← hadmits.length, List.length_map]
    refine ⟨allocated, _, _, hallocated, hturning.layout,
      hturning.flatten?_eq (by rw [List.length_map, hrank]) 0, fun hadvances => ?_⟩
    refine .bind (gives_mapped _ access.pattern) ?_
    have hgives := gives_after (I := I) hallocated hturning.laid (hσ _ _ hallocated)
      (show (access.pattern.map (·.eval (translated s (-k) i x ++ r))).length = allocated.rank by
        rw [List.length_map, hrank])
    rwa [(flatten_translated_iff s (by rw [hmoved, hflow]; exact hlate.inside) k allocated access r).mpr
      (by rw [hadvances.drift_eq_zero hturning hrank, mul_zero]; exact dvd_zero _), hback] at hgives

/-- What a computation reads, if it does nothing else. -/
private def soleRead : Computation → Option (Nat × ValueType × Access)
  | .read number type access => some (number, type, access)
  | _ => none

private theorem eq_of_soleRead {c : Computation} {read : Nat × ValueType × Access} (h : soleRead c = some read) :
    c = .read read.1 read.2.1 read.2.2 := by
  unfold soleRead at h
  split at h
  · cases h
    rfl
  · cases h

/-- After three periods, the fifth element of the stream of ones is stored next to the fourth, which it is read
from. -/
theorem turned_eq_absolute_ones : ∃ m s a array layout access, (Model.build .ones).execute.1 = .ok m ∧
    (Schedule.synthesize m ⟨true, true⟩).execute.1 = .ok s ∧
    (Allocation.allocate m s).execute.1 = .ok a ∧ s.isSteady 1 = true ∧
    a.model.arrays[0]? = some array ∧ Layout.ofArray? array = .ok layout ∧ Advances s 1 array access ∧
    ∃ σ slot slot', layout.flatten? [4] 0 = .ok slot ∧ layout.flatten? [3] 0 = .ok slot' ∧
      σ.phases 0 = phaseAfter array 3 ∧
      Gives (bufferOffset a.model Interpretation.integers.target 0 (translated s (-3) 1 [4])) σ slot ∧
      Gives (mapped Interpretation.integers.target (translated s (-3) 1 [4]) access.pattern >>=
        bufferOffset a.model Interpretation.integers.target 0) σ slot' := by
  have hrun : (Outcome.passes (Model.build .ones).execute.1 fun m =>
      Outcome.passes (Schedule.synthesize m ⟨true, true⟩).execute.1 fun s =>
        Outcome.passes (Allocation.allocate m s).execute.1 fun a =>
          (m.statements[1]?).any fun st => (a.model.arrays[0]?).any fun array =>
            (soleRead st.computation).any fun read =>
              decide (s.isSteady 1 = true ∧ st.array = 0 ∧ st.domain.locals = 0 ∧ 1 = st.domain.dims ∧
                (∀ c ∈ st.domain.cons, c.holds [4] = true) ∧ read.1 = 0 ∧ array.flow = some 0 ∧
                read.2.2.pattern.map (·.eval [4]) = [3] ∧
                read.2.2.pattern.map (·.coeff (s.flow 1) * s.period 1) = [array.buffer.period])) = true := by
    decide +kernel
  obtain ⟨m, hm, hrun⟩ := Outcome.exists_of_passes hrun
  obtain ⟨s, hs, hrun⟩ := Outcome.exists_of_passes hrun
  obtain ⟨a, ha, hrun⟩ := Outcome.exists_of_passes hrun
  obtain ⟨st, hst, hrun⟩ := (Option.any_eq_true _ _).mp hrun
  obtain ⟨array, harray, hrun⟩ := (Option.any_eq_true _ _).mp hrun
  obtain ⟨⟨number, type, access⟩, hread, hrun⟩ := (Option.any_eq_true _ _).mp hrun
  obtain ⟨hsteady, hhome, hlocals, hdims, hholds, rfl, hflow, hindex, hcoeff⟩ := of_decide_eq_true hrun
  have hincludes : st.domain.Includes [4] := (PointSet.includes_iff_holds hlocals).mpr ⟨hdims, hholds⟩
  have hcontains : st.computation.Contains (.read 0 type access) [] := by
    rw [eq_of_soleRead hread]
    exact .here
  have hadvances : Advances s 1 array access := by
    intro d row hd
    have hvalue := congrArg (·[d]?) hcoeff
    simp only [List.getElem?_map, hd, Option.map_some] at hvalue
    cases d with
    | zero =>
      rw [if_pos hflow]
      exact Option.some.inj hvalue
    | succ d => cases hvalue
  have hphases : ∀ number array, a.model.arrays[number]? = some array →
      ((fun σ : Machine Int => σ.turned a.model)^[3] (.initial .integers a.model)).phases number =
        phaseAfter array 3 := fun number array h => phases_turned h rfl 3
  have hmap : ∀ xs : List Int, xs.map Interpretation.integers.ofInt = xs := fun xs => List.map_id' xs
  obtain ⟨⟨array', layout, slot, hget, hlayout, hslot, hwrite⟩, hreads⟩ :=
    turned_eq_absolute hm hs ha hst hsteady hincludes hphases
  obtain ⟨array'', layout', slot', hget', hlayout', hslot', hread'⟩ := hreads [] 0 type access hcontains
  rw [hhome] at hget hwrite
  obtain rfl := Option.some.inj (harray.symm.trans hget)
  obtain rfl := Option.some.inj (harray.symm.trans hget')
  obtain rfl := Except.ok.inj (hlayout.symm.trans hlayout')
  have hread' := hread' hadvances
  rw [List.append_nil, hindex] at hslot'
  rw [hmap, Nat.cast_ofNat] at hwrite
  rw [List.append_nil, hmap, Nat.cast_ofNat] at hread'
  exact ⟨m, s, a, array, layout, access, hm, hs, ha, hsteady, harray, hlayout, hadvances, _, slot, slot', hslot,
    hslot', hphases 0 array harray, hwrite, hread'⟩

end Lowering

end StreamLoom
