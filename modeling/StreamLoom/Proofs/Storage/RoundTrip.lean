import StreamLoom.Proofs.Outcome
import StreamLoom.Proofs.PointSet.Membership
import StreamLoom.Proofs.Storage.Layout

/-!
# Elements and their offsets

The offset of an element is a number of which the indices are digits, and finding the element again means
taking the number apart: what remains after the digits before it is divided by the stride of a dimension,
which counts everything that is stored further inside. The first digit was cut off where the carrier runs
over and turned by the phase, so that only the remainder of that index can be found.

A buffer has as many offsets as it has elements with a slot for their index of the carrier, and every
offset is that of one of them.
-/

namespace StreamLoom

attribute [local instance] Arithmetic.exact

/-- A buffer which keeps the dimensions of an array in some order, with some slots for the first one and
room for all indices of the others. -/
structure Buffer.Spans (b : Buffer) (extents : List Extent) : Prop where
  order : b.order.Perm (List.range extents.length)
  length : b.sizes.length = extents.length
  positive : ∀ size ∈ b.sizes, 0 < size
  inner : ∀ j d size, 0 < j → b.order[j]? = some d → b.sizes[j]? = some size →
    extents[d]? = some (some size)

namespace Layout

/-- An index that is within the extents of an array, except along the carrier. -/
structure Inside (l : Layout) (extents : List Extent) (index : List Int) : Prop where
  length : index.length = extents.length
  within : ∀ d size, l.carrier ≠ some d → extents[d]? = some (some size) →
    0 ≤ valuation index d ∧ valuation index d < size

/-- An index with that of the slot in place of that of the carrier. -/
def slotted (l : Layout) (index : List Int) : List Int :=
  l.carrier.elim index fun c => index.modify c (· % l.slots)

/-! ### Digits -/

/-- Dividing by what a digit counts takes it off a number. -/
theorem divide_mul_add {n a r : Int} (ha : 0 ≤ a) (hr : 0 ≤ r) (hr' : r < n) :
    Arithmetic.truncDiv (a * n + r) n = a ∧ (a * n + r).tmod n = r := by
  have hnonneg : 0 ≤ a * n + r := by
    have hproduct := mul_nonneg ha (by omega : 0 ≤ n)
    omega
  rw [Arithmetic.truncDiv, Arithmetic.fit_exact, Int.tdiv_eq_ediv_of_nonneg hnonneg,
    Int.tmod_eq_emod_of_nonneg hnonneg]
  apply eq_of_mul_add_eq (Int.emod_nonneg _ (by omega)) (Int.emod_lt_of_pos _ (by omega)) hr hr'
  rw [mul_comm, Int.mul_ediv_add_emod]

/-- Every number below the product of the sizes is that of some digits. -/
theorem exists_digits {ds : List Nat} {sizes : List Int} (hnodup : ds.Nodup)
    (hlength : ds.length = sizes.length) (hpos : ∀ size ∈ sizes, 0 < size) {n : Int} (hlow : 0 ≤ n)
    (hhigh : n < sizes.prod) :
    ∃ x : Nat → Int, List.Forall₂ (fun digit size => 0 ≤ digit ∧ digit < size) (ds.map x) sizes ∧
      number (ds.map x) sizes = n := by
  induction ds generalizing sizes n with
  | nil =>
    obtain rfl : sizes = [] := List.eq_nil_of_length_eq_zero hlength.symm
    rw [List.prod_nil] at hhigh
    refine ⟨fun _ => 0, .nil, ?_⟩
    rw [List.map_nil]
    exact (show n = 0 by omega).symm
  | cons c ds ih =>
    cases sizes with
    | nil => cases hlength
    | cons size sizes =>
      obtain ⟨hc, hnodup⟩ := List.nodup_cons.mp hnodup
      have hrest : ∀ size ∈ sizes, 0 < size := fun size hsize => hpos size (List.mem_cons_of_mem _ hsize)
      have hprod : 0 < sizes.prod := List.prod_pos hrest
      rw [List.prod_cons] at hhigh
      obtain ⟨x, hdigits, hnumber⟩ := ih hnodup (Nat.succ.inj hlength) hrest
        (Int.emod_nonneg n hprod.ne') (Int.emod_lt_of_pos n hprod)
      have hsame : ds.map (Function.update x c (n / sizes.prod)) = ds.map x := by
        refine List.map_congr_left fun d hd => Function.update_of_ne ?_ _ _
        rintro rfl
        exact hc hd
      refine ⟨Function.update x c (n / sizes.prod), ?_⟩
      rw [List.map_cons, Function.update_self, hsame]
      refine ⟨.cons ⟨Int.ediv_nonneg hlow hprod.le, Int.ediv_lt_of_lt_mul hprod hhigh⟩ hdigits, ?_⟩
      rw [number, hnumber, Int.ediv_mul_add_emod]

/-- What is left of an offset is divided into the indices of the dimensions, one after another. -/
theorem insideIndices_number {l : Layout} {ds : List Nat} {sizes : List Int} {x : Nat → Int}
    (hnodup : ds.Nodup) (hstrides : ∀ d ∈ ds, l.strides.getD d 0 = strideIn ds sizes d)
    (hdigits : List.Forall₂ (fun digit size => 0 ≤ digit ∧ digit < size) (ds.map x) sizes) :
    l.insideIndices ds (number (ds.map x) sizes) = ds.map fun d => (d, x d) := by
  induction ds generalizing sizes with
  | nil => rfl
  | cons c ds ih =>
    obtain ⟨hc, hnodup⟩ := List.nodup_cons.mp hnodup
    obtain _ | ⟨hdigit, hrest⟩ := hdigits
    rename_i size sizes
    obtain ⟨hlow, hhigh⟩ := number_bounds hrest
    obtain ⟨hquotient, hremainder⟩ := divide_mul_add hdigit.1 hlow hhigh
    have hstride : l.strides.getD c 0 = sizes.prod := by
      rw [hstrides c List.mem_cons_self, strideIn_cons, if_pos rfl]
    have hinner : ∀ d ∈ ds, l.strides.getD d 0 = strideIn ds sizes d := by
      intro d hd
      rw [hstrides d (List.mem_cons_of_mem _ hd), strideIn_cons, if_neg (by rintro rfl; exact hc hd)]
    simp only [List.map_cons, insideIndices, number, hstride, hquotient, hremainder]
    rw [ih hnodup hinner hrest]

/-- Every dimension finds the index that was given for it. -/
theorem lookup_indices {ds : List Nat} {d : Nat} (hd : d ∈ ds) (x : Nat → Int) :
    (ds.map fun d => (d, x d)).lookup d = some (x d) := by
  induction ds with
  | nil => cases hd
  | cons c ds ih =>
    rw [List.map_cons, List.lookup_cons]
    by_cases hdc : d = c
    · simp [hdc]
    · rw [beq_false_of_ne hdc]
      exact ih ((List.mem_cons.mp hd).resolve_left hdc)

end Layout

namespace Buffer.Spans

variable {b : Buffer} {extents : List Extent} {c : Nat} {ds : List Nat} {slots : Int} {sizes : List Int}

theorem exists_cons (hb : b.Spans extents) (hrank : extents ≠ []) :
    ∃ c ds slots sizes, b.order = c :: ds ∧ b.sizes = slots :: sizes := by
  have hpos : 0 < extents.length := List.length_pos_iff.mpr hrank
  have horder : b.order ≠ [] := by
    rw [← List.length_pos_iff, hb.order.length_eq, List.length_range]
    exact hpos
  have hsizes : b.sizes ≠ [] := by
    rw [← List.length_pos_iff, hb.length]
    exact hpos
  obtain ⟨c, ds, hcons⟩ := List.exists_cons_of_ne_nil horder
  obtain ⟨slots, sizes, hcons'⟩ := List.exists_cons_of_ne_nil hsizes
  exact ⟨c, ds, slots, sizes, hcons, hcons'⟩

theorem nodup (hb : b.Spans extents) (horder : b.order = c :: ds) : c ∉ ds ∧ ds.Nodup := by
  have hnodup : b.order.Nodup := hb.order.nodup_iff.mpr List.nodup_range
  rw [horder] at hnodup
  exact List.nodup_cons.mp hnodup

theorem length_inner (hb : b.Spans extents) (horder : b.order = c :: ds) (hsizes : b.sizes = slots :: sizes) :
    ds.length = sizes.length := by
  have hcount := hb.order.length_eq
  have hlength := hb.length
  rw [horder, List.length_cons, List.length_range] at hcount
  rw [hsizes, List.length_cons] at hlength
  omega

theorem sizes_pos (hb : b.Spans extents) (hsizes : b.sizes = slots :: sizes) :
    0 < slots ∧ 0 < sizes.prod := by
  refine ⟨hb.positive slots (by simp [hsizes]), List.prod_pos fun size hsize => hb.positive size ?_⟩
  rw [hsizes]
  exact List.mem_cons_of_mem _ hsize

theorem slots_eq (hb : b.Spans extents) (hsizes : b.sizes = slots :: sizes) :
    (Layout.ofBuffer extents.length b).slots = slots := by
  have hrank : extents.length ≠ 0 := by
    have hlength := hb.length
    rw [hsizes, List.length_cons] at hlength
    omega
  simp [Layout.ofBuffer, hsizes, hrank]

theorem lt_of_mem (hb : b.Spans extents) {d : Nat} (hd : d ∈ b.order) : d < extents.length :=
  List.mem_range.mp (hb.order.mem_iff.mp hd)

theorem carrier_eq (horder : b.order = c :: ds) : (Layout.ofBuffer extents.length b).carrier = some c := by
  simp [Layout.carrier, Layout.ofBuffer, horder]

theorem slice_eq (hsizes : b.sizes = slots :: sizes) :
    (Layout.ofBuffer extents.length b).slice = sizes.prod := by
  simp [Layout.ofBuffer, Arithmetic.product_eq_prod, hsizes]

theorem length_eq (hsizes : b.sizes = slots :: sizes) :
    (Layout.ofBuffer extents.length b).length = slots * sizes.prod := by
  simp [Layout.ofBuffer, Buffer.length, Arithmetic.product_eq_prod, hsizes]

/-- An index that is inside has digits for all dimensions but the outermost one, and these are the only
indices that are restricted. -/
theorem digits_iff (hb : b.Spans extents) (horder : b.order = c :: ds) (hsizes : b.sizes = slots :: sizes)
    {index : List Int} : (Layout.ofBuffer extents.length b).Inside extents index ↔
      index.length = extents.length ∧
      List.Forall₂ (fun digit size => 0 ≤ digit ∧ digit < size) (ds.map (valuation index)) sizes := by
  have hextent : ∀ (j d : Nat) (size : Int), ds[j]? = some d → sizes[j]? = some size →
      extents[d]? = some (some size) := by
    intro j d size hd hsize
    exact hb.inner (j + 1) d size j.succ_pos (by simpa [horder] using hd) (by simpa [hsizes] using hsize)
  obtain ⟨hc, -⟩ := hb.nodup horder
  have hcount := hb.length_inner horder hsizes
  constructor
  · intro h
    refine ⟨h.length, List.forall₂_iff_get.mpr ⟨by simpa using hcount, fun j hj hj' => ?_⟩⟩
    rw [List.length_map] at hj
    simp only [List.get_eq_getElem, List.getElem_map]
    refine h.within ds[j] sizes[j] ?_ (hextent j _ _ (List.getElem?_eq_getElem hj) (List.getElem?_eq_getElem hj'))
    rw [carrier_eq horder]
    intro heq
    exact hc (Option.some.inj heq ▸ List.getElem_mem hj)
  · rintro ⟨hlength, hdigits⟩
    refine ⟨hlength, fun d size hne hsize => ?_⟩
    have hd : d ∈ b.order := by
      rw [hb.order.mem_iff, List.mem_range]
      exact (List.getElem?_eq_some_iff.mp hsize).1
    rw [horder, List.mem_cons] at hd
    rw [carrier_eq horder] at hne
    obtain ⟨j, hj, rfl⟩ := List.mem_iff_getElem.mp (hd.resolve_left fun heq => hne (congrArg some heq.symm))
    have hj' : j < sizes.length := hcount ▸ hj
    have hsame := hextent j _ _ (List.getElem?_eq_getElem hj) (List.getElem?_eq_getElem hj')
    rw [hsize, Option.some.injEq, Option.some.injEq] at hsame
    have hdigit := (List.forall₂_iff_get.mp hdigits).2 j (by simpa using hj) hj'
    simpa [hsame] using hdigit

/-- Taking an offset apart gives the indices that it was put together from, and the carrier what is left
of its index when the phase is turned back. -/
theorem unflatten_eq (hb : b.Spans extents) (horder : b.order = c :: ds) (hsizes : b.sizes = slots :: sizes)
    {x : Nat → Int}
    (hdigits : List.Forall₂ (fun digit size => 0 ≤ digit ∧ digit < size) (ds.map x) sizes) {slot : Int}
    (hslot : 0 ≤ slot) (phase : Int) :
    (Layout.ofBuffer extents.length b).unflatten
        (slot * sizes.prod + Layout.number (ds.map x) sizes) phase =
      coordinates extents.length (Function.update x c ((slot - phase) % slots)) := by
  obtain ⟨hc, hnodup⟩ := hb.nodup horder
  obtain ⟨hlow, hhigh⟩ := Layout.number_bounds hdigits
  obtain ⟨hquotient, hremainder⟩ := Layout.divide_mul_add hslot hlow hhigh
  have hstrides : ∀ d ∈ ds, (Layout.ofBuffer extents.length b).strides.getD d 0 =
      Layout.strideIn ds sizes d := by
    intro d hd
    have hlt : d < extents.length := hb.lt_of_mem (horder ▸ List.mem_cons_of_mem c hd)
    rw [Layout.strides_ofBuffer hb.length.le hlt, horder, hsizes, Layout.strideIn_cons,
      if_neg (by rintro rfl; exact hc hd)]
  have hinside := Layout.insideIndices_number hnodup hstrides hdigits
  have hindices : (c, (slot - phase) % slots) :: ds.map (fun d => (d, x d)) =
      (c :: ds).map fun d => (d, Function.update x c ((slot - phase) % slots) d) := by
    rw [List.map_cons, Function.update_self]
    refine congrArg _ (List.map_congr_left fun d hd => ?_)
    rw [Function.update_of_ne (by rintro rfl; exact hc hd)]
  have hcons : (Layout.ofBuffer extents.length b).order = c :: ds := horder
  have hlength : (Layout.ofBuffer extents.length b).strides.length = extents.length := by
    simp [Layout.ofBuffer]
  simp only [Layout.unflatten, hcons, slice_eq hsizes, hb.slots_eq hsizes, hquotient, hremainder, hinside,
    hlength, Arithmetic.residue, Arithmetic.fit_exact, hindices]
  refine List.map_congr_left fun d hd => ?_
  rw [← List.map_reverse, Layout.lookup_indices, Option.getD_some]
  rw [List.mem_reverse, ← horder, hb.order.mem_iff]
  exact hd

theorem flatten_eq (hb : b.Spans extents) (horder : b.order = c :: ds) (hsizes : b.sizes = slots :: sizes)
    {index : List Int} (h : (Layout.ofBuffer extents.length b).Inside extents index) (phase : Int) :
    (Layout.ofBuffer extents.length b).flatten index phase =
      (phase + valuation index c) % slots * sizes.prod +
        Layout.number (ds.map (valuation index)) sizes := by
  obtain ⟨hlength, hdigits⟩ := (hb.digits_iff horder hsizes).mp h
  exact Layout.flatten_ofBuffer hb.order horder hsizes (hb.sizes_pos hsizes).1 hlength hdigits phase

theorem slotted_coordinates (hb : b.Spans extents) (horder : b.order = c :: ds)
    (hsizes : b.sizes = slots :: sizes) (x : Nat → Int) :
    (Layout.ofBuffer extents.length b).slotted (coordinates extents.length x) =
      coordinates extents.length (Function.update x c (x c % slots)) := by
  have hc : c < extents.length := hb.lt_of_mem (horder ▸ List.mem_cons_self)
  rw [Layout.slotted, carrier_eq horder, Option.elim_some, hb.slots_eq hsizes]
  refine ext_of_valuation (by simp) fun d hd => ?_
  rw [length_coordinates] at hd
  rw [valuation_modify (by rwa [length_coordinates]), valuation_coordinates hd, valuation_coordinates hc]
  by_cases hdc : d = c
  · rw [hdc, Function.update_self, Function.update_self]
  · rw [Function.update_of_ne hdc, Function.update_of_ne hdc, valuation_coordinates hd]

/-! ### Guarded forms -/

/-- Nothing that an offset is divided by is zero. -/
theorem unflatten?_eq (hb : b.Spans extents) (flat phase : Int) :
    (Layout.ofBuffer extents.length b).unflatten? flat phase =
      .ok ((Layout.ofBuffer extents.length b).unflatten flat phase) := by
  by_cases hrank : extents = []
  · simp [Layout.unflatten?, Layout.ofBuffer, hrank, pure, Except.pure]
  obtain ⟨c, ds, slots, sizes, horder, hsizes⟩ := hb.exists_cons hrank
  obtain ⟨hslots, hprod⟩ := hb.sizes_pos hsizes
  have hne : extents.length ≠ 0 := fun h => hrank (List.eq_nil_of_length_eq_zero h)
  have hstrides : (Layout.ofBuffer extents.length b).order.tail.forM (fun d =>
      Arithmetic.nonzero ((Layout.ofBuffer extents.length b).strides.getD d 0)) = .ok () := by
    refine Outcome.forM_ok fun d hd => Arithmetic.nonzero_eq_ok ?_
    have hmem : d ∈ b.order := List.mem_of_mem_tail hd
    rw [Layout.strides_ofBuffer hb.length.le (hb.lt_of_mem hmem)]
    exact (Layout.strideIn_pos hmem hb.positive).ne'
  have hcons : (Layout.ofBuffer extents.length b).order.isEmpty = false := by
    simp [Layout.ofBuffer, horder]
  have hstored : (Layout.ofBuffer extents.length b).strides.isEmpty = false := by
    simp [Layout.ofBuffer, hne]
  simp only [Layout.unflatten?, hstored, hcons, slice_eq hsizes, hb.slots_eq hsizes,
    Arithmetic.nonzero_eq_ok hprod.ne', Arithmetic.nonzero_eq_ok hslots.ne', hstrides]
  rfl

/-! ### Back and forth -/

/-- A buffer without dimensions holds one element. -/
theorem ofBuffer_scalar (hb : b.Spans []) : Layout.ofBuffer 0 b = ⟨[], [], 1, 1, 1⟩ := by
  have horder : b.order = [] := List.perm_nil.mp hb.order
  have hsizes : b.sizes = [] := List.eq_nil_of_length_eq_zero hb.length
  simp [Layout.ofBuffer, Buffer.length, Arithmetic.product_eq_prod, horder, hsizes]

/-- The slot of an element is found by turning the phase back. -/
theorem unflatten_flatten (hb : b.Spans extents) {index : List Int}
    (h : (Layout.ofBuffer extents.length b).Inside extents index) (phase : Int) :
    (Layout.ofBuffer extents.length b).unflatten
        ((Layout.ofBuffer extents.length b).flatten index phase) phase =
      (Layout.ofBuffer extents.length b).slotted index := by
  by_cases hrank : extents = []
  · subst hrank
    obtain rfl : index = [] := List.eq_nil_of_length_eq_zero h.length
    rw [List.length_nil, hb.ofBuffer_scalar]
    rfl
  obtain ⟨c, ds, slots, sizes, horder, hsizes⟩ := hb.exists_cons hrank
  obtain ⟨hslots, -⟩ := hb.sizes_pos hsizes
  obtain ⟨hlength, hdigits⟩ := (hb.digits_iff horder hsizes).mp h
  have hturned : ((phase + valuation index c) % slots - phase) % slots = valuation index c % slots := by
    rw [Int.emod_sub_emod, add_sub_cancel_left]
  rw [hb.flatten_eq horder hsizes h, hb.unflatten_eq horder hsizes hdigits (Int.emod_nonneg _ hslots.ne'),
    hturned, ← hb.slotted_coordinates horder hsizes, ← hlength, coordinates_valuation]

/-- Every offset is put together from digits, and the first one from an index that the phase turns to it. -/
theorem exists_of_offset (hb : b.Spans extents) {flat : Int} (hlow : 0 ≤ flat)
    (hhigh : flat < (Layout.ofBuffer extents.length b).length) (phase : Int) :
    ∃ index, (Layout.ofBuffer extents.length b).unflatten flat phase = index ∧
      (Layout.ofBuffer extents.length b).Inside extents index ∧
      (Layout.ofBuffer extents.length b).slotted index = index ∧
      (Layout.ofBuffer extents.length b).flatten index phase = flat := by
  by_cases hrank : extents = []
  · subst hrank
    rw [List.length_nil, hb.ofBuffer_scalar] at hhigh ⊢
    obtain rfl : flat = 0 := by
      change flat < 1 at hhigh
      omega
    refine ⟨[], rfl, ⟨rfl, by simp⟩, rfl, ?_⟩
    simp [Layout.flatten, Arithmetic.residue]
  obtain ⟨c, ds, slots, sizes, horder, hsizes⟩ := hb.exists_cons hrank
  obtain ⟨hc, hnodup⟩ := hb.nodup horder
  rw [length_eq hsizes, ← List.prod_cons] at hhigh
  have hcount : (c :: ds).length = (slots :: sizes).length := by
    rw [List.length_cons, List.length_cons, hb.length_inner horder hsizes]
  obtain ⟨x, hx, rfl⟩ := Layout.exists_digits (List.nodup_cons.mpr ⟨hc, hnodup⟩) hcount
    (hsizes ▸ hb.positive) hlow hhigh
  obtain _ | ⟨⟨hslot, hslot'⟩, hdigits⟩ := hx
  have houter : c < extents.length := hb.lt_of_mem (horder ▸ List.mem_cons_self)
  have hinner : ds.map (valuation (coordinates extents.length
      (Function.update x c ((x c - phase) % slots)))) = ds.map x := by
    refine List.map_congr_left fun d hd => ?_
    have hlt : d < extents.length := hb.lt_of_mem (horder ▸ List.mem_cons_of_mem c hd)
    rw [valuation_coordinates hlt, Function.update_of_ne (by rintro rfl; exact hc hd)]
  have hinside : (Layout.ofBuffer extents.length b).Inside extents
      (coordinates extents.length (Function.update x c ((x c - phase) % slots))) :=
    (hb.digits_iff horder hsizes).mpr ⟨length_coordinates _ _, hinner ▸ hdigits⟩
  rw [List.map_cons, Layout.number]
  refine ⟨_, hb.unflatten_eq horder hsizes hdigits hslot phase, hinside, ?_, ?_⟩
  · rw [hb.slotted_coordinates horder hsizes, Function.update_self, Function.update_idem, Int.emod_emod]
  · rw [hb.flatten_eq horder hsizes hinside, hinner, valuation_coordinates houter, Function.update_self,
      Int.add_emod_emod, add_sub_cancel, Int.emod_eq_of_lt hslot hslot']

theorem length_pos (hb : b.Spans extents) : 0 < (Layout.ofBuffer extents.length b).length := by
  rw [show (Layout.ofBuffer extents.length b).length = b.sizes.prod from Arithmetic.product_eq_prod _]
  exact List.prod_pos hb.positive

end Buffer.Spans

/-- Offsets and elements correspond to one another. An element that is inside its array has an offset in
the buffer, whatever the phase is, and is found there again, but for its index of the carrier, of which the
remainder is left. In turn, every offset of the buffer is that of the element which is found there. -/
theorem Layout.round_trip {array : DataArray} (hb : array.buffer.Spans array.extents) :
    ∃ layout, Layout.ofArray? array = .ok layout ∧ layout.length = array.buffer.length ∧
      (∀ index phase, layout.Inside array.extents index →
        ∃ flat, layout.flatten? index phase = .ok flat ∧ 0 ≤ flat ∧ flat < layout.length ∧
          layout.unflatten? flat phase = .ok (layout.slotted index)) ∧
      ∀ flat phase, 0 ≤ flat → flat < layout.length →
        ∃ index, layout.unflatten? flat phase = .ok index ∧ layout.Inside array.extents index ∧
          layout.slotted index = index ∧ layout.flatten? index phase = .ok flat := by
  have hpos := hb.length_pos
  have hflatten : ∀ index phase, index.length = array.extents.length →
      (ofBuffer array.rank array.buffer).flatten? index phase =
        .ok ((ofBuffer array.rank array.buffer).flatten index phase) := by
    intro index phase hlength
    exact flatten?_eq (by simp [ofBuffer, hlength]) hpos.ne' phase
  refine ⟨_, ofArray?_eq hb.order hb.length, rfl, fun index phase h => ?_, fun flat phase hlow hhigh => ?_⟩
  · refine ⟨_, hflatten index phase h.length, Int.emod_nonneg _ hpos.ne', Int.emod_lt_of_pos _ hpos, ?_⟩
    exact (hb.unflatten?_eq _ phase).trans (congrArg _ (hb.unflatten_flatten h phase))
  · obtain ⟨index, hunflatten, hinside, hslotted, hflat⟩ := hb.exists_of_offset hlow hhigh phase
    refine ⟨index, ?_, hinside, hslotted, ?_⟩
    · exact (hb.unflatten?_eq flat phase).trans (congrArg _ hunflatten)
    · exact (hflatten index phase hinside.length).trans (congrArg _ hflat)

/-- An array whose middle dimension circulates, with the last one stored outside of the first. -/
def DataArray.transposed : DataArray where
  name := "a"
  type := .int
  extents := [some 3, none, some 2]
  buffer := { order := [1, 2, 0], sizes := [4, 2, 3] }

theorem Layout.round_trip_transposed :
    DataArray.transposed.buffer.Spans DataArray.transposed.extents ∧
      ∃ layout, Layout.ofArray? DataArray.transposed = .ok layout ∧ layout.length = 24 ∧
        ∃ flat, layout.flatten? [2, -5, 1] 3 = .ok flat ∧ 0 ≤ flat ∧ flat < 24 ∧
          layout.unflatten? flat 3 = .ok [2, 3, 1] := by
  have hspans : DataArray.transposed.buffer.Spans DataArray.transposed.extents := by
    refine ⟨by decide, rfl, by decide, ?_⟩
    rintro (_ | _ | _ | j) d size hj hd hsize
    · cases hj
    · cases hd
      exact congrArg some hsize
    · cases hd
      exact congrArg some hsize
    · cases hd
  obtain ⟨layout, hlayout, hlength, hfound, -⟩ := Layout.round_trip hspans
  cases hlayout
  refine ⟨hspans, _, rfl, hlength, hfound [2, -5, 1] 3 ⟨rfl, ?_⟩⟩
  rintro (_ | _ | _ | d) size hcarrier hsize
  · cases hsize
    decide
  · cases hsize
  · cases hsize
    decide
  · cases hsize

end StreamLoom
