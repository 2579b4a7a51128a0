import StreamLoom.Proofs.Model.Dependency
import StreamLoom.Proofs.Program.Extents
import StreamLoom.Proofs.Storage.Buffers
import StreamLoom.Proofs.Storage.Layout
import StreamLoom.Proofs.Storage.Window

/-!
# Live elements

No element is overwritten before it has been read for the last time. Of two elements that share a slot
all indices agree but that of the carrier, so that the later one lies in the window of the earlier one
and of its reader. The buffer has more slots than the two are apart, unless it has as many as the
carrier has indices, and so they cannot share a slot after all.
-/

namespace StreamLoom

attribute [local instance] Arithmetic.exact

open StreamLoom.System (Solves Over)

namespace Allocation

variable {m : Model} {s : Schedule} {a : Allocation} {number : Nat} {array : DataArray}

/-! ### Circular buffers -/

theorem rank_of_carrier_none (hc : carrier m s array number = none) : array.rank = 0 := by
  unfold carrier at hc
  split at hc
  · assumption
  · split at hc <;> cases hc

theorem carrier_lt (hm : m.Built) (hs : s.Consistent m) (harray : m.arrays[number]? = some array)
    {c : Nat} (hc : carrier m s array number = some c) : c < array.rank := by
  unfold carrier at hc
  split at hc
  · cases hc
  rename_i hrank
  split at hc
  · rename_i flow hflow
    obtain rfl := Option.some.inj hc
    exact DataArray.flow_lt hflow
  · obtain rfl := Option.some.inj hc
    cases hfirst : ((m.writers number).head?.bind s.prologue.placement?).bind (·.carrier) with
    | none =>
      rw [Option.getD_none]
      omega
    | some c =>
      rw [Option.getD_some]
      obtain ⟨p, hp, hcarrier⟩ := Option.bind_eq_some_iff.mp hfirst
      obtain ⟨i, hi, hp⟩ := Option.bind_eq_some_iff.mp hp
      obtain ⟨st, hst, hearly⟩ := hs.early i p hp
      obtain ⟨st', hst', hsame⟩ := Model.mem_writers_iff.mp (List.mem_of_mem_head? hi)
      obtain rfl := Option.some.inj (hst.symm.trans hst')
      have hhoused := hm.housed_of_get (List.mem_of_getElem? hst) hsame harray
      have hlt := hearly.carrier c hcarrier
      rwa [Statement.dims, hhoused.dims] at hlt

/-- A dimension that does not circulate is finite. -/
theorem exists_extent (hsingle : Extent.Single array.extents) {c d : Nat}
    (hc : carrier m s array number = some c) (hd : d < array.rank) (hne : d ≠ c) :
    ∃ size, array.extents[d]? = some (some size) := by
  unfold carrier at hc
  split at hc
  · cases hc
  split at hc
  · rename_i flow hflow
    obtain rfl := Option.some.inj hc
    refine array.exists_extent hsingle hd fun heq => hne ?_
    exact (Option.some.inj (hflow.symm.trans heq)).symm
  · rename_i hflow
    exact array.exists_extent hsingle hd (by rw [hflow]; nofun)

private theorem within {y : Nat → Int} (hy : Solves y array.domain.cons) {d : Nat} {size : Int}
    (hd : array.extents[d]? = some (some size)) : 0 ≤ y d ∧ y d < size := by
  obtain ⟨hlow, hhigh⟩ := PointSet.solves_box.mp hy d (some size) hd
  exact ⟨hlow, hhigh size rfl⟩

theorem within_code (hsingle : Extent.Single array.extents) {c : Nat}
    (hc : carrier m s array number = some c) {y : Nat → Int} (hy : Solves y array.domain.cons) :
    ∀ d, d < array.rank → d ≠ c → 0 ≤ y d ∧ y d < Extent.code (array.extents[d]?).join := by
  intro d hd hne
  obtain ⟨size, hsize⟩ := exists_extent hsingle hc hd hne
  rw [hsize]
  exact within hy hsize

theorem circular_buffer (hm : m.Built) (hs : s.Consistent m) (harray : m.arrays[number]? = some array)
    {c : Nat} (hc : carrier m s array number = some c) {slices : Int} (hslices : 1 ≤ slices)
    (outlives : Bool) {y : Nat → Int} (hy : Solves y array.domain.cons) :
    (buffer m s array number slices outlives).Circular array.rank c
      (slotsOf (array.extents[c]?).join slices) fun d => Extent.code (array.extents[d]?).join := by
  refine ⟨carrier_lt hm hs harray hc, ?_, ?_, ?_⟩
  · simp only [buffer, hc]
    rfl
  · simp only [buffer, hc]
    rfl
  · cases hextent : (array.extents[c]?).join with
    | none =>
      change 0 < slices
      omega
    | some size =>
      change 0 < min slices size
      have hwithin := within hy (Option.join_eq_some_iff.mp hextent)
      omega

/-- Elements that are closer along the carrier than the slices, and different, are further apart than
the slots allow to share one. -/
private theorem eq_of_dvd {c : Nat} {slices : Int} {y z : Nat → Int} (hy : Solves y array.domain.cons)
    (hz : Solves z array.domain.cons) (hdistance : |z c - y c| < slices)
    (hdvd : slotsOf (array.extents[c]?).join slices ∣ z c - y c) : z c = y c := by
  have hlt : |z c - y c| < slotsOf (array.extents[c]?).join slices := by
    cases hextent : (array.extents[c]?).join with
    | none => exact hdistance
    | some size =>
      have hwithin := within hy (Option.join_eq_some_iff.mp hextent)
      have hwithin' := within hz (Option.join_eq_some_iff.mp hextent)
      change _ < min slices size
      rw [lt_min_iff]
      refine ⟨hdistance, ?_⟩
      rw [abs_lt]
      omega
  have hzero := Int.eq_zero_of_abs_lt_dvd hdvd hlt
  omega

/-- Elements share a slot only if they are the same, as long as those that agree but for the carrier are
closer along it than the slices. -/
private theorem eq_of_flatten_eq (hm : m.Built) (hs : s.Consistent m)
    (harray : m.arrays[number]? = some array) (hsingle : Extent.Single array.extents) {c : Nat}
    (hc : carrier m s array number = some c) {slices : Int} (hslices : 1 ≤ slices) (outlives : Bool)
    {y z : List Int} (hylength : y.length = array.rank) (hzlength : z.length = array.rank)
    (hy : Solves (valuation y) array.domain.cons) (hz : Solves (valuation z) array.domain.cons)
    (hdistance : (∀ e, e < array.rank → e ≠ c → valuation z e = valuation y e) →
      |valuation z c - valuation y c| < slices)
    (heq : (Layout.ofBuffer array.rank (buffer m s array number slices outlives)).flatten z 0 =
      (Layout.ofBuffer array.rank (buffer m s array number slices outlives)).flatten y 0) : z = y := by
  have hcircular := circular_buffer hm hs harray hc hslices outlives hy
  rw [hcircular.flatten_eq_flatten_iff hzlength hylength (within_code hsingle hc hz)
    (within_code hsingle hc hy), zero_add, zero_add] at heq
  obtain ⟨hdvd, hagrees⟩ := heq
  have hcarrier := eq_of_dvd hy hz (hdistance hagrees) hdvd
  refine ext_of_valuation (hzlength.trans hylength.symm) fun e he => ?_
  by_cases hec : e = c
  · rw [hec]
    exact hcarrier
  · exact hagrees e (he.trans_eq hylength) hec

/-- An element that is executed between another one and a reader of it does not take its slot. -/
theorem slot_ne_of_occurs (hbuilt : m.Built) (hconsistent : s.Consistent m)
    (hsingle : ∀ array ∈ m.arrays, Extent.Single array.extents) (ha : (allocate m s).execute.1 = .ok a)
    {d : Dependency} (hd : d ∈ m.dependencies) {x y z : List Int}
    (hlinks : d.relation.Links (valuation x) (valuation y)) {w : Nat} (hw : w ∈ m.writers d.array)
    (hne : z ≠ y) {tx ty tz : List Int} (htx : s.Occurs m d.consumer x tx)
    (hty : s.Occurs m d.producer y ty) (htz : s.Occurs m w z tz) (hyz : ty < tz) (hzx : tz < tx) :
    ∃ array layout slot slot', a.model.arrays[d.array]? = some array ∧
      Layout.ofArray? array = .ok layout ∧ layout.flatten? z 0 = .ok slot ∧
      layout.flatten? y 0 = .ok slot' ∧ slot ≠ slot' := by
  have hoccurs {i : Nat} {p t : List Int} (h : s.Occurs m i p t) :=
    Execution.exists_of_occurs hconsistent hbuilt.proper h
  obtain ⟨producer, consumer, hjoins⟩ := hbuilt.joins hd
  obtain ⟨reader, hreader, hst, hrpoint, rfl, -, -⟩ := hoccurs htx
  obtain ⟨writer, hwriter, hst', hwpoint, rfl, hylength, hy⟩ := hoccurs hty
  obtain ⟨other, hother, hst'', hopoint, rfl, hzlength, hz⟩ := hoccurs htz
  rw [hjoins.reads] at hst
  rw [hjoins.writes] at hst'
  obtain rfl := Option.some.inj hst
  obtain rfl := Option.some.inj hst'
  obtain ⟨st, hst, hsame⟩ := Model.mem_writers_iff.mp hw
  obtain rfl := Option.some.inj (hst''.symm.trans hst)
  -- Both elements belong to the array of the dependency.
  obtain ⟨array, hhoused⟩ := hbuilt.housed _ (List.mem_of_getElem? hjoins.writes)
  have harray : m.arrays[d.array]? = some array := by rw [← hjoins.array, hhoused.home]
  have hhoused' := hbuilt.housed_of_get (List.mem_of_getElem? hst'') hsame harray
  have hsingle := hsingle array (List.mem_of_getElem? harray)
  have hwdims : writer.statement.dims = array.rank := hhoused.dims
  have hodims : other.statement.dims = array.rank := hhoused'.dims
  have hyrank := hylength.trans hwdims
  have hzrank := hzlength.trans hodims
  have hy := hhoused.inside _ hy
  have hz := hhoused'.inside _ hz
  cases hc : carrier m s array d.array with
  | none =>
    have hrank := rank_of_carrier_none hc
    rw [hrank, List.length_eq_zero_iff] at hyrank hzrank
    exact absurd (hzrank.trans hyrank.symm) hne
  | some c =>
    obtain ⟨slices, outlives, hslices, hallocated, hrequires⟩ := exists_buffer ha harray
    obtain ⟨⟨r, hr, hle⟩, -⟩ := hrequires d hd rfl
    have hcircular := circular_buffer hbuilt hconsistent harray hc hslices outlives hy
    refine ⟨_, _, _, _, hallocated, hcircular.ofArray?_eq,
      hcircular.flatten?_eq hzrank (within_code hsingle hc hz) 0,
      hcircular.flatten?_eq hyrank (within_code hsingle hc hy) 0, fun heq => hne ?_⟩
    refine eq_of_flatten_eq hbuilt hconsistent harray hsingle hc hslices outlives hyrank hzrank hy hz
      (fun hagrees => ?_) heq
    have hrequirement : Requirement.ofDependency m s (some c) d = .ok r := by
      rw [require, harray] at hr
      rw [← hr, ← hc]
      rfl
    have hdistance := Requirement.abs_lt_slices hconsistent hrequirement hjoins.regular hreader hwriter
      (by rw [hother]; exact hw) hjoins.inputs hjoins.outputs (hodims.trans hwdims.symm)
      (by rw [hrpoint, hwpoint]; exact hlinks) hyz hzx
      (by rw [hwdims]; exact carrier_lt hbuilt hconsistent harray hc)
      (fun e he hne => by
        rw [hwpoint, hopoint]
        exact (hagrees e (by rwa [← hwdims]) hne).symm)
    rw [hwpoint, hopoint] at hdistance
    exact hdistance.trans_le hle

/-- Nothing that is written between the write of an element and a read of it takes its slot. -/
theorem slot_ne_of_between {library : Library} {files : List SourceFile} {program : Program}
    {options : ScheduleOptions} (hread : (Program.read library files).result = .ok program)
    (hm : (Model.build program).execute.1 = .ok m)
    (hs : (Schedule.synthesize m options).execute.1 = .ok s) (ha : (allocate m s).execute.1 = .ok a)
    {d : Dependency} (hd : d ∈ m.dependencies) {x y z : List Int} (hxy : d.relation.Relates x y)
    {w : Nat} (hw : w ∈ m.writers d.array) (hne : z ≠ y) {tx ty tz : List Int}
    (htx : s.time? d.consumer x = .ok (some tx)) (hty : s.time? d.producer y = .ok (some ty))
    (htz : s.time? w z = .ok (some tz)) (hyz : ty < tz) (hzx : tz < tx) :
    ∃ array layout slot slot', a.model.arrays[d.array]? = some array ∧
      Layout.ofArray? array = .ok layout ∧ layout.flatten? z 0 = .ok slot ∧
      layout.flatten? y 0 = .ok slot' ∧ slot ≠ slot' := by
  have hbuilt := Model.built_of_build hm
  have hconsistent := Schedule.consistent_of_synthesize hbuilt.proper hs
  have hoccurs {i : Nat} {p t : List Int} (h : s.time? i p = .ok (some t)) :=
    (Schedule.time?_eq_some_iff hconsistent hbuilt.proper).mp h
  obtain ⟨producer, consumer, hjoins⟩ := hbuilt.joins hd
  obtain ⟨-, -, hlinks⟩ := (Relation.relates_iff hjoins.regular).mp hxy
  exact slot_ne_of_occurs hbuilt hconsistent (Model.single_of_build (Program.single_of_read hread) hm) ha
    hd hlinks hw hne (hoccurs htx) (hoccurs hty) (hoccurs htz) hyz hzx

/-- A stream in which every element is the second one before it. -/
def alternating : List SourceFile :=
  [⟨"", "(array a int [inf] (pattern [0] 1) (pattern [1] 2) (pattern [i] (when (> i 1)) (a (- i 2))))".toList⟩]

/-- The element at three is written while the one at two waits to be read at four. -/
theorem slot_ne_alternating : ∃ program m s a d w tx ty tz,
    (Program.read ⟨⟨"", []⟩, []⟩ alternating).result = .ok program ∧
    (Model.build program).execute.1 = .ok m ∧
    (Schedule.synthesize m ⟨true, true⟩).execute.1 = .ok s ∧ (allocate m s).execute.1 = .ok a ∧
    d ∈ m.dependencies ∧ d.relation.Relates [4] [2] ∧ w ∈ m.writers d.array ∧
    s.time? d.consumer [4] = .ok (some tx) ∧ s.time? d.producer [2] = .ok (some ty) ∧
    s.time? w [3] = .ok (some tz) ∧ ty < tz ∧ tz < tx ∧
    ∃ array layout slot slot', a.model.arrays[d.array]? = some array ∧
      Layout.ofArray? array = .ok layout ∧ layout.flatten? [3] 0 = .ok slot ∧
      layout.flatten? [2] 0 = .ok slot' ∧ slot ≠ slot' := by
  have hrun : (Outcome.passes (Program.read ⟨⟨"", []⟩, []⟩ alternating).result fun program =>
      Outcome.passes (Model.build program).execute.1 fun m =>
      Outcome.passes (Schedule.synthesize m ⟨true, true⟩).execute.1 fun s =>
      Outcome.passes (allocate m s).execute.1 fun _ => m.dependencies.any fun d =>
        decide (1 = d.relation.inputs ∧ 1 = d.relation.outputs ∧ 0 = d.relation.locals ∧
          ∀ c ∈ d.relation.cons, c.holds [4, 2] = true) &&
        (m.writers d.array).any fun w =>
          Outcome.passes (s.time? d.consumer [4]) fun tx => Outcome.passes (s.time? d.producer [2]) fun ty =>
          Outcome.passes (s.time? w [3]) fun tz => tx.any fun tx => ty.any fun ty => tz.any fun tz =>
            decide (ty < tz ∧ tz < tx)) = true := by
    decide +kernel
  obtain ⟨program, hread, hrun⟩ := Outcome.exists_of_passes hrun
  obtain ⟨m, hm, hrun⟩ := Outcome.exists_of_passes hrun
  obtain ⟨s, hs, hrun⟩ := Outcome.exists_of_passes hrun
  obtain ⟨a, ha, hrun⟩ := Outcome.exists_of_passes hrun
  obtain ⟨d, hd, hrun⟩ := List.any_eq_true.mp hrun
  obtain ⟨hrelates, hrun⟩ := Bool.and_eq_true_iff.mp hrun
  obtain ⟨hinputs, houtputs, hlocals, hholds⟩ := of_decide_eq_true hrelates
  have hxy : d.relation.Relates [4] [2] := ⟨hinputs, houtputs, [], hlocals, hholds⟩
  obtain ⟨w, hw, hrun⟩ := List.any_eq_true.mp hrun
  obtain ⟨tx, htx, hrun⟩ := Outcome.exists_of_passes hrun
  obtain ⟨ty, hty, hrun⟩ := Outcome.exists_of_passes hrun
  obtain ⟨tz, htz, hrun⟩ := Outcome.exists_of_passes hrun
  simp only [Option.any_eq_true, decide_eq_true_eq] at hrun
  obtain ⟨tx, rfl, ty, rfl, tz, rfl, hyz, hzx⟩ := hrun
  exact ⟨program, m, s, a, d, w, tx, ty, tz, hread, hm, hs, ha, hd, hxy, hw, htx, hty, htz, hyz, hzx,
    slot_ne_of_between hread hm hs ha hd hxy hw (by decide) htx hty htz hyz hzx⟩

end Allocation

end StreamLoom
