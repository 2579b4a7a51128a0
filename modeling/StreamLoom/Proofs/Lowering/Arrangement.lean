import StreamLoom.Proofs.Lowering.Run
import StreamLoom.Proofs.Storage.Allocation

/-!
# Allocated models

Allocating storage makes the arrangement that a run relies on. The length of a buffer is the product of
its sizes, of which the first is that of the carrier, and the carrier of a stream is its flow dimension.
Since all statements that write an array have the same period, this is the period of its buffer as well.
-/

namespace StreamLoom

attribute [local instance] Arithmetic.exact

theorem Schedule.Consistent.of_statements_eq {s : Schedule} {m m' : Model} (h : s.Consistent m)
    (hstatements : m'.statements = m.statements) : s.Consistent m' := by
  obtain ⟨hflows, hperiods, hearly, hlate, hcovered, hearlyOrder, hlateOrder⟩ := h
  rw [← hstatements] at hflows hperiods hearly hlate hcovered
  exact ⟨hflows, hperiods, hearly, hlate, hcovered, hearlyOrder, hlateOrder⟩

namespace Allocation

variable {m : Model} {s : Schedule} {a : Allocation} {number : Nat} {array : DataArray}

/-! ### Periods of buffers -/

theorem periodOf_nonneg (m : Model) (s : Schedule) (number : Nat) : 0 ≤ periodOf m s number := by
  have hfold : ∀ (periods : List Int) (found : Int), 0 ≤ found →
      0 ≤ periods.foldl (fun found p => if p > 0 then p else found) found := by
    intro periods
    induction periods with
    | nil => exact fun _ hfound => hfound
    | cons p periods ih =>
      intro found hfound
      rw [List.foldl_cons]
      refine ih _ ?_
      split <;> omega
  exact hfold _ 0 le_rfl

/-- Of entries that pass a test, the last one is kept. -/
private theorem foldl_last {α : Type} {test : α → Prop} [DecidablePred test] {value : α → Int} {v : Int}
    {xs : List α} (hall : ∀ x ∈ xs, test x → value x = v) (init : Int) (hsome : init = v ∨ ∃ x ∈ xs, test x) :
    xs.foldl (fun found x => if test x then value x else found) init = v := by
  induction xs generalizing init with
  | nil => simpa using hsome
  | cons x xs ih =>
    rw [List.foldl_cons]
    refine ih (fun y hy => hall y (List.mem_cons_of_mem x hy)) _ ?_
    by_cases hx : test x
    · rw [if_pos hx]
      exact .inl (hall x List.mem_cons_self hx)
    · rw [if_neg hx]
      obtain rfl | ⟨y, hy, htest⟩ := hsome
      · exact .inl rfl
      · rcases List.mem_cons.mp hy with rfl | hy
        · exact absurd htest hx
        · exact .inr ⟨y, hy, htest⟩

/-- The period of a buffer is that of the statements which write the array, where they have one. -/
theorem periodOf_eq (hs : s.Consistent m) {i : Nat} {st : Statement} (hst : m.statements[i]? = some st)
    (hperiod : 0 < s.period i) : periodOf m s st.array = s.period i := by
  apply foldl_last
  · intro p hp _
    obtain ⟨j, hj, rfl⟩ := List.mem_map.mp hp
    obtain ⟨st', hst', harray⟩ := Model.mem_writers_iff.mp hj
    exact hs.periods j i st' st hst' hst harray
  · exact .inr ⟨_, List.mem_map_of_mem (Model.mem_writers_iff.mpr ⟨st, hst, rfl⟩), hperiod⟩

/-- The buffer of a finite array does not advance. -/
theorem periodOf_eq_zero (hm : m.Built) {options : ScheduleOptions}
    (hs : (Schedule.synthesize m options).execute.1 = .ok s) (harray : m.arrays[number]? = some array)
    (hflow : array.flow = none) : periodOf m s number = 0 := by
  apply foldl_last
  · intro p hp _
    obtain ⟨i, hi, rfl⟩ := List.mem_map.mp hp
    obtain ⟨st, hst, rfl⟩ := Model.mem_writers_iff.mp hi
    by_contra hperiod
    obtain ⟨st', hst', flow, hsame, hflow'⟩ := Schedule.streams_of_synthesize hm.proper hs hst hperiod
    rw [← (hm.housed_of_get hst' hsame harray).flow, hflow'] at hflow
    cases hflow
  · exact .inl rfl

/-- The offset of a buffer is that of the statements which write the array in the steady state. -/
theorem offsetOf_eq (hm : m.Proper) {options : ScheduleOptions}
    (hs : (Schedule.synthesize m options).execute.1 = .ok s) {i : Nat} {st : Statement}
    (hst : m.statements[i]? = some st) (hsteady : s.isSteady i = true) :
    offsetOf m s st.array = s.offset i := by
  apply foldl_last
  · intro j hj hsteady'
    obtain ⟨st', hst', harray⟩ := Model.mem_writers_iff.mp hj
    exact Schedule.offset_eq_of_synthesize hm hs hst' hst harray hsteady' hsteady
  · exact .inr ⟨i, Model.mem_writers_iff.mpr ⟨st, hst, rfl⟩, hsteady⟩

theorem buffer_attributes (m : Model) (s : Schedule) (array : DataArray) (number : Nat) (slices : Int)
    (outlives : Bool) :
    (buffer m s array number slices outlives).period = periodOf m s number ∧
      (buffer m s array number slices outlives).offset = offsetOf m s number := by
  unfold buffer
  dsimp only
  split
  · exact ⟨rfl, rfl⟩
  · exact ⟨rfl, rfl⟩

/-! ### Layouts -/

private theorem rank_pos_of_carrier {c : Nat} (hc : carrier m s array number = some c) :
    array.rank ≠ 0 := by
  unfold carrier at hc
  split at hc
  · cases hc
  · assumption

private theorem sizes_buffer {c : Nat} (hc : carrier m s array number = some c) (slices : Int)
    (outlives : Bool) :
    ∃ slots, (buffer m s array number slices outlives).order = c :: Buffer.others array.rank c ∧
      (buffer m s array number slices outlives).sizes =
        slots :: (Buffer.others array.rank c).map fun d => Extent.code (array.extents[d]?).join := by
  refine ⟨slotsOf (array.extents[c]?).join slices, ?_⟩
  simp only [buffer, hc]
  exact ⟨rfl, rfl⟩

theorem laid_buffer (slices : Int) (outlives : Bool) :
    Lowering.Laid { array with buffer := buffer m s array number slices outlives } := by
  cases hc : carrier m s array number with
  | none =>
    have hrank := rank_of_carrier_none hc
    have hbuffer : buffer m s array number slices outlives =
        { period := periodOf m s number, offset := offsetOf m s number, outlives } := by
      simp only [buffer, hc]
    rw [hbuffer]
    refine ⟨periodOf_nonneg m s number, ?_, fun _ => rfl⟩
    change Arithmetic.product [] = (if array.rank = 0 then 1 else 1) * Arithmetic.product []
    rw [ite_self, one_mul]
  | some c =>
    have hrank := rank_pos_of_carrier hc
    obtain ⟨slots, -, hsizes⟩ := sizes_buffer hc slices outlives
    refine ⟨?_, ?_, fun hzero => absurd hzero hrank⟩
    · change 0 ≤ (buffer m s array number slices outlives).period
      rw [(buffer_attributes m s array number slices outlives).1]
      exact periodOf_nonneg m s number
    · change (buffer m s array number slices outlives).length =
        (if array.rank = 0 then 1 else (buffer m s array number slices outlives).sizes.headD 1) *
          Arithmetic.product (buffer m s array number slices outlives).sizes.tail
      rw [if_neg hrank, Buffer.length, hsizes, Arithmetic.product_eq_prod, Arithmetic.product_eq_prod,
        List.prod_cons]
      rfl

/-- Along the carrier, elements are a slice apart. -/
theorem stride_buffer {c : Nat} (hc : carrier m s array number = some c) (hlt : c < array.rank)
    (slices : Int) (outlives : Bool) :
    (Layout.ofBuffer array.rank (buffer m s array number slices outlives)).strides.getD c 0 =
      (Layout.ofBuffer array.rank (buffer m s array number slices outlives)).slice := by
  obtain ⟨slots, horder, hsizes⟩ := sizes_buffer hc slices outlives
  have hothers : (Buffer.others array.rank c).length < array.rank := by
    have hremoved : (Buffer.others array.rank c).length < (List.range array.rank).length :=
      List.length_filter_lt_length_iff_exists.mpr ⟨c, List.mem_range.mpr hlt, by simp⟩
    rwa [List.length_range] at hremoved
  have hindex : (buffer m s array number slices outlives).order.idxOf? c = some 0 := by
    rw [horder, List.idxOf?_cons]
    simp
  have htake : (buffer m s array number slices outlives).sizes.take array.rank =
      (buffer m s array number slices outlives).sizes := by
    refine List.take_of_length_le ?_
    rw [hsizes, List.length_cons, List.length_map]
    exact hothers
  simp only [Layout.ofBuffer, List.getD_eq_getElem?_getD, List.getElem?_map, List.getElem?_range hlt,
    Option.map_some, Option.getD_some, Layout.strideOf, hindex, htake, Nat.zero_add, List.drop_one]

/-! ### Arrangements -/

theorem arranged (hm : m.Built) (hs : s.Consistent m) (ha : (allocate m s).execute.1 = .ok a) :
    Lowering.Arranged a.model s := by
  have hstatements := statements_eq ha
  refine ⟨hs.of_statements_eq hstatements, ?_, ?_⟩
  · intro i st hst
    rw [hstatements] at hst
    obtain ⟨array, hhoused⟩ := hm.housed st (List.mem_of_getElem? hst)
    obtain ⟨slices, outlives, -, hallocated, -⟩ := exists_buffer ha hhoused.home
    exact ⟨_, hallocated, hhoused.dims, laid_buffer slices outlives⟩
  · intro i st flow p array' hst hlate harray'
    rw [hstatements] at hst
    obtain ⟨array, hhoused⟩ := hm.housed st (List.mem_of_getElem? hst)
    obtain ⟨slices, outlives, -, hallocated, -⟩ := exists_buffer ha hhoused.home
    rw [hallocated] at harray'
    obtain rfl := Option.some.inj harray'
    have hflow : array.flow = some flow := by rw [← hhoused.flow, hlate.flows]
    have hlt : flow < array.rank := by
      rw [← hhoused.dims]
      exact hlate.inside
    have hcarrier : carrier m s array st.array = some flow := by
      rw [carrier, if_neg (by omega), hflow]
    have hperiod : (buffer m s array st.array slices outlives).period = s.period i := by
      rw [(buffer_attributes m s array st.array slices outlives).1, periodOf_eq hs hst hlate.period]
    change s.period i *
      (Layout.ofBuffer array.rank (buffer m s array st.array slices outlives)).strides.getD flow 0 =
        (buffer m s array st.array slices outlives).period *
          (Layout.ofBuffer array.rank (buffer m s array st.array slices outlives)).slice
    rw [stride_buffer hcarrier hlt, hperiod]

end Allocation

end StreamLoom
