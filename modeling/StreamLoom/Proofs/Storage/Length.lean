import Mathlib.Algebra.Order.BigOperators.Ring.List
import StreamLoom.Proofs.Affine.Modular
import StreamLoom.Proofs.Compilation.Stages
import StreamLoom.Proofs.Storage.Allocation

/-!
# Lengths of buffers

A buffer has at least one element in every direction: extents are positive where they are declared, and so
is the number of slots. How many elements it has is a product of words though, which is the number of
elements only as long as that is a word itself. Nothing that compiles a program looks at this, so that a
buffer which is too long ends up with any length, zero included.
-/

namespace StreamLoom

/-! ### Products -/

namespace Arithmetic

section

variable [Arithmetic] [Modular]

/-- Of a product, as much is kept as of the exact one. -/
theorem product_eq_fit (hone : fit 1 = 1) (xs : List Int) : product xs = fit xs.prod := by
  have hfold : ∀ (xs : List Int) (n : Int), fit n = n →
      xs.foldl (fun acc x => fit (acc * x)) n = fit (n * xs.prod) := by
    intro xs
    induction xs with
    | nil =>
      intro n hn
      rw [List.foldl_nil, List.prod_nil, mul_one, hn]
    | cons x xs ih =>
      intro n _
      rw [List.foldl_cons, ih (fit (n * x)) (fit_fit _), fit_mul, List.prod_cons, mul_assoc]
  rw [product, hfold xs 1 hone, one_mul]

end

/-- A positive number is a word when it is less than half of what the bits of a word count. -/
theorem wrap_eq_self_iff {n : Int} (hn : 0 < n) : wrap n = n ↔ n < 2 ^ 63 := by
  constructor
  · intro h
    rw [wrap_eq_bmod, Int.bmod_def] at h
    omega
  · intro h
    exact wrap_of_mem (by omega) (by omega)

end Arithmetic

/-! ### Sizes -/

namespace Allocation

variable {m : Model} {s : Schedule} {a : Allocation} {array : DataArray}

theorem one_le_slotsOf {extent : Extent} {slices : Int} (hextent : ∀ size, extent = some size → 0 < size)
    (hslices : 1 ≤ slices) : 1 ≤ slotsOf extent slices := by
  cases extent with
  | none => exact hslices
  | some size =>
    have hsize := hextent size rfl
    exact le_min hslices hsize

/-- The sizes of a buffer are those of its dimensions, of which the finite ones have a positive size. -/
theorem one_le_sizes_buffer (hsingle : Extent.Single array.extents)
    (hpositive : Extent.Positive array.extents) {number : Nat} {slices : Int} (hslices : 1 ≤ slices)
    (outlives : Bool) : ∀ size ∈ (buffer m s array number slices outlives).sizes, 1 ≤ size := by
  intro size hsize
  rw [buffer] at hsize
  cases hc : carrier m s array number with
  | none =>
    rw [hc] at hsize
    cases hsize
  | some c =>
    rw [hc] at hsize
    cases hsize with
    | head =>
      apply one_le_slotsOf ?_ hslices
      intro size hextent
      exact hpositive size (List.mem_of_getElem? (Option.join_eq_some_iff.mp hextent))
    | tail _ hsize =>
      obtain ⟨d, hd, rfl⟩ := List.mem_map.mp hsize
      rw [List.mem_filter, List.mem_range, decide_eq_true_eq] at hd
      obtain ⟨size, hextent⟩ := exists_extent hsingle hc hd.1 hd.2
      have hlt := hpositive size (List.mem_of_getElem? hextent)
      show 1 ≤ Extent.code (array.extents[d]?).join
      rw [hextent]
      exact hlt

/-- Every size of a buffer that was allocated is at least one. -/
theorem one_le_sizes [Arithmetic] (ha : (allocate m s).execute.1 = .ok a)
    (hsingle : ∀ array ∈ m.arrays, Extent.Single array.extents)
    (hpositive : ∀ array ∈ m.arrays, Extent.Positive array.extents) (harray : array ∈ a.model.arrays) :
    ∀ size ∈ array.buffer.sizes, 1 ≤ size := by
  obtain ⟨number, hnumber⟩ := List.getElem?_of_mem harray
  obtain ⟨before, hbefore⟩ := exists_array ha hnumber
  obtain ⟨slices, outlives, hslices, hallocated, -⟩ := exists_buffer ha hbefore
  have hmem := List.mem_of_getElem? hbefore
  rw [hnumber] at hallocated
  cases hallocated
  exact one_le_sizes_buffer (hsingle before hmem) (hpositive before hmem) hslices outlives

end Allocation

theorem Compilation.Staged.one_le_sizes [Arithmetic] {config : Config} {library : Library}
    {files : List SourceFile} {m : Model} {c : Compilation} (hc : c.Staged config library files m)
    {array : DataArray} (harray : array ∈ c.model.arrays) : ∀ size ∈ array.buffer.sizes, 1 ≤ size := by
  apply Allocation.one_le_sizes hc.allocate ?_ ?_ harray
  · exact Program.extents_of_build Draft.declarable_single
      (Program.declares_of_read Draft.declarable_single hc.read) hc.build
  · exact Program.extents_of_build Draft.declarable_positive
      (Program.declares_of_read Draft.declarable_positive hc.read) hc.build

/-! ### Lengths -/

attribute [local instance] Arithmetic.word64

namespace Layout

open Arithmetic

theorem length_ofBuffer (rank : Nat) (b : Buffer) : (ofBuffer rank b).length = wrap b.sizes.prod :=
  product_eq_fit rfl b.sizes

theorem slice_ofBuffer (rank : Nat) (b : Buffer) : (ofBuffer rank b).slice = wrap b.sizes.tail.prod :=
  product_eq_fit rfl b.sizes.tail

/-- Of sizes that are positive, leaving out the first one makes the product no greater. -/
theorem prod_tail_le {sizes : List Int} (hsizes : ∀ size ∈ sizes, 1 ≤ size) :
    1 ≤ sizes.tail.prod ∧ sizes.tail.prod ≤ sizes.prod := by
  have hpos : 0 < sizes.tail.prod := by
    apply List.prod_pos
    intro size hsize
    exact hsizes size (List.mem_of_mem_tail hsize)
  refine ⟨hpos, ?_⟩
  cases sizes with
  | nil => exact le_refl _
  | cons size sizes =>
    rw [List.prod_cons]
    exact le_mul_of_one_le_left hpos.le (hsizes size List.mem_cons_self)

end Layout

namespace Compilation

open Arithmetic Layout

/-- Every size of a buffer is at least one. The length of the buffer is the number of its elements exactly
when that is a word, and then the slice is exact as well, and all offsets are within the buffer. -/
theorem length_exact_iff {config : Config} {library : Library} {files : List SourceFile} {c : Compilation}
    (h : (compile config library files).execute.1 = .ok c) {array : DataArray}
    (harray : array ∈ c.model.arrays) :
    (∀ size ∈ array.buffer.sizes, 1 ≤ size) ∧ 1 ≤ (Layout.ofBuffer array.rank array.buffer).slots ∧
    (array.buffer.length = array.buffer.sizes.prod ↔ array.buffer.sizes.prod < 2 ^ 63) ∧
    (array.buffer.sizes.prod < 2 ^ 63 → 1 ≤ array.buffer.length ∧
      1 ≤ (Layout.ofBuffer array.rank array.buffer).slice ∧
      (Layout.ofBuffer array.rank array.buffer).slice = array.buffer.sizes.tail.prod ∧
      ∀ layout index phase offset, Layout.ofArray? array = .ok layout →
        layout.flatten? index phase = .ok offset → 0 ≤ offset ∧ offset < array.buffer.length) := by
  obtain ⟨m, hc⟩ := staged_of_compile h
  have hsizes := hc.one_le_sizes harray
  obtain ⟨hslice, hle⟩ := prod_tail_le hsizes
  have hlength : array.buffer.length = wrap array.buffer.sizes.prod :=
    length_ofBuffer array.rank array.buffer
  have hpos : 0 < array.buffer.sizes.prod := lt_of_lt_of_le zero_lt_one (hslice.trans hle)
  refine ⟨hsizes, ?_, ?_, fun hfits => ?_⟩
  · show 1 ≤ if array.rank = 0 then 1 else array.buffer.sizes.headD 1
    split
    · exact le_refl _
    · cases hcases : array.buffer.sizes with
      | nil => exact le_refl _
      | cons size sizes => exact hsizes size (by rw [hcases]; exact List.mem_cons_self)
  · rw [hlength]
    exact wrap_eq_self_iff hpos
  · have hexact : array.buffer.length = array.buffer.sizes.prod := by
      rw [hlength]
      exact (wrap_eq_self_iff hpos).mpr hfits
    have hslice' : (Layout.ofBuffer array.rank array.buffer).slice = array.buffer.sizes.tail.prod := by
      rw [slice_ofBuffer]
      exact (wrap_eq_self_iff hslice).mpr (lt_of_le_of_lt hle hfits)
    refine ⟨by rw [hexact]; exact hpos, by rw [hslice']; exact hslice, hslice', ?_⟩
    intro layout index phase offset hlayout hflatten
    have hlayout := eq_of_ofArray? hlayout
    have hoffset : offset = fit (phase * layout.slice + Arithmetic.dot index layout.strides) % layout.length :=
      eq_of_flatten? hflatten
    have hmodulus : 0 < layout.length := by
      rw [hlayout]
      show 0 < array.buffer.length
      rw [hexact]
      exact hpos
    rw [hoffset]
    have hlast := Int.emod_lt_of_pos (fit (phase * layout.slice + Arithmetic.dot index layout.strides)) hmodulus
    refine ⟨Int.emod_nonneg _ hmodulus.ne', hlast.trans_eq ?_⟩
    rw [hlayout]
    rfl

/-- A stream of which every step has as many rows and columns. -/
def board (rows columns : Int) : List SourceFile :=
  [⟨"", ("(array a int [inf " ++ toString rows ++ " " ++ toString columns ++ "] (pattern [i j k] i))").toList⟩]

/-- Three rows of two columns are six elements, of which none is held outside of the buffer. -/
theorem length_exact_iff_board : ∃ c array layout,
    (compile {} ⟨⟨"", []⟩, []⟩ (board 3 2)).execute.1 = .ok c ∧ array ∈ c.model.arrays ∧
    Layout.ofArray? array = .ok layout ∧ array.buffer.sizes.prod < 2 ^ 63 ∧ array.buffer.length = 6 ∧
    ∀ index phase offset, layout.flatten? index phase = .ok offset → 0 ≤ offset ∧ offset < 6 := by
  have hrun : (Outcome.passes (compile {} ⟨⟨"", []⟩, []⟩ (board 3 2)).execute.1 fun c =>
      c.model.arrays.any fun array => decide (array.buffer.sizes.prod = 6) &&
        Outcome.passes (Layout.ofArray? array) fun _ => true) = true := by
    decide +kernel
  obtain ⟨c, hc, hrun⟩ := Outcome.exists_of_passes hrun
  obtain ⟨array, harray, hrun⟩ := List.any_eq_true.mp hrun
  obtain ⟨hprod, hlaid⟩ := Bool.and_eq_true_iff.mp hrun
  obtain ⟨layout, hlayout, -⟩ := Outcome.exists_of_passes hlaid
  have hsix : array.buffer.sizes.prod = 6 := of_decide_eq_true hprod
  have hfits : array.buffer.sizes.prod < 2 ^ 63 := by
    rw [hsix]
    decide
  obtain ⟨-, -, hexact, hwithin⟩ := length_exact_iff hc harray
  have hlength : array.buffer.length = 6 := (hexact.mpr hfits).trans hsix
  obtain ⟨-, -, -, hoffsets⟩ := hwithin hfits
  rw [hlength] at hoffsets
  exact ⟨c, array, layout, hc, harray, hlayout, hfits, hlength,
    fun index phase offset => hoffsets layout index phase offset hlayout⟩

/-- With enough rows and columns, the length is zero. -/
example : (Outcome.passes (compile {} ⟨⟨"", []⟩, []⟩ (board 4294967296 4294967296)).execute.1 fun c =>
    c.model.arrays.all fun array => decide (array.buffer.length = 0)) = true := by
  decide +kernel

end Compilation

end StreamLoom
