import StreamLoom.Llvm.Target
import StreamLoom.Proofs.Llvm.Construction
import StreamLoom.Proofs.Lowering.Discipline

/-!
# Steps of the lowering to LLVM

Whatever is emitted for a step only uses values that are known in the current block, and ends in values that
are. Variables, and the pointers that stem from the parameters, are computed in the first block. A conditional
or a loop ends in a block of its own, which lies below the one before.
-/

namespace StreamLoom.Llvm.Construction

open Assembling (emit emitTo run)

variable {w : Construction} {v x y : Value}

theorem knows_int {b : Nat} (type : Ty) (c : Int) : w.Knows b (.int type c) :=
  knows_of_not_result fun _ _ => nofun

theorem here_index (c : Int) : w.Here (.index c) := knows_int .i64 c

theorem knows_parameter {b : Nat} (name : String) (type : Ty) : w.Knows b (.parameter name type) :=
  knows_of_not_result fun _ _ => nofun

theorem knows_constant {b : Nat} (c : Constant) : w.Knows b (constant c) := by
  apply knows_of_not_result
  intro id type
  cases c <;> nofun

/-! ### Instructions -/

section

attribute [local simp] Instruction.operands

theorem holds_binary (op : BinaryOp) (hx : w.Here x) (hy : w.Here y) :
    w.Holds (emit (.binary op x y)) Here := holds_emit (by simp [hx, hy])

theorem holds_compareInt (p : IntPredicate) (hx : w.Here x) (hy : w.Here y) :
    w.Holds (emit (.compareInt p x y)) Here := holds_emit (by simp [hx, hy])

theorem holds_compareReal (p : RealPredicate) (hx : w.Here x) (hy : w.Here y) :
    w.Holds (emit (.compareReal p x y)) Here := holds_emit (by simp [hx, hy])

theorem holds_select (hv : w.Here v) (hx : w.Here x) (hy : w.Here y) :
    w.Holds (emit (.select v x y)) Here := holds_emit (by simp [hv, hx, hy])

theorem holds_cast (op : CastOp) (hx : w.Here x) (type : Ty) : w.Holds (emit (.cast op x type)) Here :=
  holds_emit (by simp [hx])

theorem holds_load (type : Ty) (hx : w.Here x) : w.Holds (emit (.load type x)) Here :=
  holds_emit (by simp [hx])

theorem holds_store (hv : w.Here v) (hx : w.Here x) : w.Holds (run (.store v x)) fun _ _ => True :=
  holds_run (by simp [hv, hx])

theorem holds_element (type : Ty) (hx : w.Here x) (hv : w.Here v) : w.Holds (emit (.element type x [v])) Here :=
  holds_emit (by simp [hx, hv])

end

/-! ### Integers -/

theorem holds_floorDiv (hx : w.Here x) (hy : w.Here y) : w.Holds (floorDiv x y) Here := by
  unfold floorDiv
  refine (holds_binary .sdiv hx hy).bind fun w₁ q b₁ hq => ?_
  refine (holds_binary .srem (b₁.here hx) (b₁.here hy)).bind fun w₂ r b₂ hr => ?_
  refine (holds_compareInt .ne hr (here_index 0)).bind fun w₃ inexact b₃ hinexact => ?_
  refine (holds_compareInt .slt (b₃.here hr) (here_index 0)).bind fun w₄ negative b₄ hnegative => ?_
  have b : Below w w₄ := b₁.trans (b₂.trans (b₃.trans b₄))
  refine (holds_compareInt .slt (b.here hy) (here_index 0)).bind fun w₅ divisor b₅ hdivisor => ?_
  refine (holds_binary .xor (b₅.here hnegative) hdivisor).bind fun w₆ signs b₆ hsigns => ?_
  have hinexact₆ := (b₄.trans (b₅.trans b₆)).here hinexact
  refine (holds_binary .and hinexact₆ hsigns).bind fun w₇ both b₇ hboth => ?_
  have hq₇ := (b₂.trans (b₃.trans (b₄.trans (b₅.trans (b₆.trans b₇))))).here hq
  refine (holds_binary .sub hq₇ (here_index 1)).bind fun w₈ less b₈ hless => ?_
  exact holds_select (b₈.here hboth) hless (b₈.here hq₇)

theorem holds_ceilDiv (hx : w.Here x) (hy : w.Here y) : w.Holds (ceilDiv x y) Here := by
  unfold ceilDiv
  refine (holds_binary .sdiv hx hy).bind fun w₁ q b₁ hq => ?_
  refine (holds_binary .srem (b₁.here hx) (b₁.here hy)).bind fun w₂ r b₂ hr => ?_
  refine (holds_compareInt .sgt hr (here_index 0)).bind fun w₃ positive b₃ hpositive => ?_
  have hq₃ := (b₂.trans b₃).here hq
  refine (holds_binary .add hq₃ (here_index 1)).bind fun w₄ more b₄ hmore => ?_
  exact holds_select (b₄.here hpositive) hmore (b₄.here hq₃)

/-- The choice between a value and its opposite, by its sign. -/
theorem holds_magnitude (hx : w.Here x) : w.Holds (do
    let negative ← emit (.compareInt .slt x zero)
    let opposite ← emit (.binary .sub zero x)
    emit (.select negative opposite x)) Here := by
  refine (holds_compareInt .slt hx (here_index 0)).bind fun w₁ negative b₁ hnegative => ?_
  refine (holds_binary .sub (here_index 0) (b₁.here hx)).bind fun w₂ opposite b₂ hopposite => ?_
  exact holds_select (b₂.here hnegative) hopposite ((b₁.trans b₂).here hx)

private theorem holds_corrected {r size : Value} (hr : w.Here r) (hsize : w.Here size) : w.Holds (do
    let negative ← emit (.compareInt .slt r zero)
    let more ← emit (.binary .add r size)
    emit (.select negative more r)) Here := by
  refine (holds_compareInt .slt hr (here_index 0)).bind fun w₁ negative b₁ hnegative => ?_
  refine (holds_binary .add (b₁.here hr) (b₁.here hsize)).bind fun w₂ more b₂ hmore => ?_
  exact holds_select (b₂.here hnegative) hmore ((b₁.trans b₂).here hr)

theorem holds_mod (hx : w.Here x) (hy : w.Here y) : w.Holds (mod x y) Here := by
  unfold mod
  refine (holds_binary .srem hx hy).bind fun w₁ r b₁ hr => ?_
  dsimp only
  split
  · exact (Holds.pure (b₁.here hy)).bind fun w₂ size b₂ hsize => holds_corrected (b₂.here hr) hsize
  · refine (holds_compareInt .slt (b₁.here hy) (here_index 0)).bind fun w₂ negative b₂ hnegative => ?_
    have hy₂ := (b₁.trans b₂).here hy
    refine (holds_binary .sub (here_index 0) hy₂).bind fun w₃ opposite b₃ hopposite => ?_
    refine (holds_select (b₃.here hnegative) hopposite (b₃.here hy₂)).bind fun w₄ size b₄ hsize => ?_
    exact holds_corrected ((b₂.trans (b₃.trans b₄)).here hr) hsize

section

variable [Arithmetic]

theorem holds_indexAdd (hx : w.Here x) (hy : w.Here y) : w.Holds (indexAdd x y) Here := by
  unfold indexAdd
  split
  · exact .pure (here_index _)
  · exact .pure hx
  · exact .pure hy
  · exact holds_binary .add hx hy

theorem holds_indexMul (hx : w.Here x) (hy : w.Here y) : w.Holds (indexMul x y) Here := by
  unfold indexMul
  split
  · exact .pure (here_index _)
  · exact .pure hx
  · exact .pure hy
  · exact holds_binary .mul hx hy

theorem holds_indexMod (hv : w.Here v) (modulus : Int) : w.Holds (indexMod v modulus) Here := by
  unfold indexMod
  split
  · exact .pure (here_index 0)
  · split
    · split
      · exact .pure (here_index _)
      · exact .throw _
    · exact holds_mod hv (here_index modulus)

end

/-! ### Memory -/

theorem mem_of_lookup {entries : List (Nat × Value)} {n : Nat} (h : entries.lookup n = some v) :
    (n, v) ∈ entries := by
  obtain ⟨before, after, rfl, _⟩ := List.lookup_eq_some_iff.mp h
  exact List.mem_append_right before List.mem_cons_self

theorem knows_indices {b : Nat} (array : Nat) (field : Int) :
    ∀ v ∈ (Instruction.element .buffer buffersParameter [.index array, .int .i32 field]).operands, w.Knows b v := by
  intro v hv
  simp only [Instruction.operands, List.mem_cons, List.not_mem_nil, or_false] at hv
  obtain rfl | rfl | rfl := hv
  · exact knows_parameter _ _
  · exact knows_int _ _
  · exact knows_int _ _

theorem holds_phaseField (array : Nat) : w.Holds (phaseField array) Here := holds_emit (knows_indices array 1)

theorem holds_phase (array : Nat) : w.Holds (phase array) Here :=
  (holds_phaseField array).bind fun _ _ _ hpointer => holds_load .i64 hpointer

theorem holds_pointer {slot : Value} (hslot : w.Knows 0 slot) (type : Ty) {f : Value → Assembly → Assembly}
    (hf : ∀ w' : Construction, ∀ pointer, w'.Knows 0 pointer → w'.Holds (modify (f pointer)) fun _ _ => True) :
    w.Holds (do
      let pointer ← emitTo Assembling.entry (.cast .bitcast slot (.pointer type))
      modify (f pointer)
      return pointer) Here := by
  have hcast : ∀ v ∈ (Instruction.cast .bitcast slot (.pointer type)).operands, w.Knows 0 v :=
    List.forall_mem_singleton.mpr hslot
  refine (holds_emitTo_entry hcast).bind fun w₁ pointer _ hpointer => ?_
  refine (hf w₁ pointer hpointer).bind fun w₂ _ b₂ _ => ?_
  exact .pure (here_of_entry (b₂.knows_entry hpointer))

theorem holds_bytes {slot : Value} (hslot : w.Knows 0 slot) :
    w.Holds (emitTo Assembling.entry (.load .bytes slot)) fun w' v => w'.Knows 0 v :=
  holds_emitTo_entry (i := .load .bytes slot) (List.forall_mem_singleton.mpr hslot)

/-- The pointer to the data of a buffer is kept, as it is computed in the first block. -/
theorem holds_dataOf (array : Nat) (type : Ty) : w.Holds (dataOf array type) Here := by
  unfold dataOf
  refine holds_get.bind fun w₁ a _ ha => ?_
  obtain ⟨rfl, rfl⟩ := ha
  split
  · rename_i pointer hpointer
    exact .pure (here_of_cached (.inl ⟨array, mem_of_lookup hpointer⟩))
  · refine (holds_emitTo_entry (knows_indices array 0)).bind fun w₂ slot _ hslot => ?_
    refine (holds_bytes hslot).bind fun w₃ raw _ hraw => ?_
    refine holds_pointer hraw type fun w₄ pointer hpointer => ?_
    refine holds_modify ⟨rfl, rfl, rfl, rfl, rfl, rfl⟩ ?_ w₄.declares
    intro v hv
    rcases hv with ⟨n, hn⟩ | hv
    · cases List.mem_cons.mp hn with
      | inl heq =>
        cases heq
        exact hpointer
      | inr hmem => exact w₄.cached v (.inl ⟨n, hmem⟩)
    · exact w₄.cached v (.inr hv)

theorem holds_inputOf (input : Nat) (type : Ty) : w.Holds (inputOf input type) Here := by
  unfold inputOf
  refine holds_get.bind fun w₁ a _ ha => ?_
  obtain ⟨rfl, rfl⟩ := ha
  split
  · rename_i pointer hpointer
    exact .pure (here_of_cached (.inr (.inl ⟨input, mem_of_lookup hpointer⟩)))
  · have hslot : ∀ v ∈ (Instruction.element .bytes inputsParameter [.index input]).operands, w₁.Knows 0 v :=
      List.forall_mem_cons.mpr ⟨knows_parameter _ _, List.forall_mem_singleton.mpr (knows_int _ _)⟩
    refine (holds_emitTo_entry hslot).bind fun w₂ slot _ hslot => ?_
    refine (holds_bytes hslot).bind fun w₃ raw _ hraw => ?_
    refine holds_pointer hraw type fun w₄ pointer hpointer => ?_
    refine holds_modify ⟨rfl, rfl, rfl, rfl, rfl, rfl⟩ ?_ w₄.declares
    intro v hv
    rcases hv with hv | ⟨n, hn⟩ | hv
    · exact w₄.cached v (.inl hv)
    · cases List.mem_cons.mp hn with
      | inl heq =>
        cases heq
        exact hpointer
      | inr hmem => exact w₄.cached v (.inr (.inl ⟨n, hmem⟩))
    · exact w₄.cached v (.inr (.inr hv))

theorem holds_outputOf (type : Ty) : w.Holds (outputOf type) Here := by
  unfold outputOf
  refine holds_get.bind fun w₁ a _ ha => ?_
  obtain ⟨rfl, rfl⟩ := ha
  split
  · rename_i pointer hpointer
    exact .pure (here_of_cached (.inr (.inr hpointer)))
  · refine holds_pointer (knows_parameter _ _) type fun w₂ pointer hpointer => ?_
    refine holds_modify ⟨rfl, rfl, rfl, rfl, rfl, rfl⟩ ?_ w₂.declares
    intro v hv
    rcases hv with hv | hv | hv
    · exact w₂.cached v (.inl hv)
    · exact w₂.cached v (.inr (.inl hv))
    · exact Option.some.inj hv ▸ hpointer

theorem holds_typeOf (type : ValueType) : w.Holds (typeOf type) fun _ _ => True := by
  cases type with
  | unknown => exact .throw _
  | bool | int | real => exact .pure trivial

section

variable {model : Model}

theorem holds_arrayAt (number : Nat) :
    w.Holds (Lowering.arrayAt model number) fun _ array => model.arrays[number]? = some array := by
  unfold Lowering.arrayAt
  split
  · rename_i array harray
    exact .pure harray
  · exact .throw _

theorem holds_bufferElement (array : Nat) {offset : Value} (hoffset : w.Here offset) :
    w.Holds (bufferElement model array offset) fun w' x => w'.Here x.1 := by
  unfold bufferElement
  refine (holds_arrayAt array).bind fun w₁ a b₁ _ => ?_
  refine (holds_typeOf a.type).bind fun w₂ type b₂ _ => ?_
  refine (holds_dataOf array type).bind fun w₃ data b₃ hdata => ?_
  refine (holds_element type hdata ((b₁.trans (b₂.trans b₃)).here hoffset)).bind fun w₄ pointer _ hpointer => ?_
  exact .pure hpointer

theorem holds_loadOf (array : Nat) {offset : Value} (hoffset : w.Here offset) :
    w.Holds (load model array offset) Here :=
  (holds_bufferElement array hoffset).bind fun _ x _ hpointer => holds_load x.2 hpointer

theorem holds_storeTo (array : Nat) {offset : Value} (hoffset : w.Here offset) (hv : w.Here v) :
    w.Holds (store model array offset v) fun _ _ => True :=
  (holds_bufferElement array hoffset).bind fun _ _ b hpointer => holds_store (b.here hv) hpointer

theorem holds_loadInput (input : Nat) {offset : Value} (hoffset : w.Here offset) :
    w.Holds (loadInput model input offset) Here := by
  unfold loadInput
  split
  · exact .throw _
  · rename_i i _
    refine (holds_typeOf i.type).bind fun w₁ type b₁ _ => ?_
    refine (holds_inputOf input type).bind fun w₂ data b₂ hdata => ?_
    refine (holds_element type hdata ((b₁.trans b₂).here hoffset)).bind fun w₃ pointer _ hpointer => ?_
    exact holds_load type hpointer

theorem holds_storeOutput {offset : Value} (hoffset : w.Here offset) (hv : w.Here v) :
    w.Holds (storeOutput model offset v) fun _ _ => True := by
  unfold storeOutput
  split
  · exact .throw _
  · rename_i array _
    refine (holds_arrayAt array).bind fun w₁ a b₁ _ => ?_
    refine (holds_typeOf a.type).bind fun w₂ type b₂ _ => ?_
    refine (holds_outputOf type).bind fun w₃ data b₃ hdata => ?_
    have b : Below w w₃ := b₁.trans (b₂.trans b₃)
    refine (holds_element type hdata (b.here hoffset)).bind fun w₄ pointer b₄ hpointer => ?_
    exact holds_store ((b.trans b₄).here hv) hpointer

end

/-! ### Elements -/

theorem holds_convert (hv : w.Here v) (source target : ValueType) : w.Holds (convert v source target) Here := by
  unfold convert
  split
  · exact .pure hv
  · split
    · exact (holds_cast .zext hv .i64).bind fun _ _ _ hx => holds_cast .sitofp hx .double
    · exact holds_cast .zext hv .i64
    · exact holds_compareInt .ne hv (here_index 0)
    · exact holds_compareReal .one hv (knows_constant (.real .zero))
    · exact holds_cast .sitofp hv .double
    · exact holds_cast .fptosi hv .i64

theorem holds_pair {i : Value → Value → Instruction} (hi : ∀ x y, (i x y).operands = [x, y])
    (h : ∀ v ∈ [x, y], w.Here v) : w.Holds (emit (i x y)) Here := by
  apply holds_emit
  rw [hi]
  exact h

theorem holds_logical (op : Op) {operands : List Value} (h : ∀ v ∈ operands, w.Here v) :
    w.Holds (logical op operands) Here := by
  unfold logical
  split
  · exact holds_pair (i := .binary .and) (fun _ _ => rfl) h
  · exact holds_pair (i := .binary .or) (fun _ _ => rfl) h
  · exact holds_binary .xor (List.forall_mem_singleton.mp h) (knows_constant (.bool true))
  · exact holds_pair (i := .compareInt .eq) (fun _ _ => rfl) h
  · exact holds_pair (i := .compareInt .ne) (fun _ _ => rfl) h
  · exact .throw _

theorem holds_extreme (p : IntPredicate) (hx : w.Here x) (hy : w.Here y) : w.Holds (extreme p x y) Here :=
  (holds_compareInt p hx hy).bind fun _ _ b hv => holds_select hv (b.here hx) (b.here hy)

theorem holds_integer (op : Op) {operands : List Value} (h : ∀ v ∈ operands, w.Here v) :
    w.Holds (integer op operands) Here := by
  have hpair : ∀ {x y}, operands = [x, y] → w.Here x ∧ w.Here y := by
    intro x y heq
    rw [heq] at h
    exact ⟨h x (by simp), h y (by simp)⟩
  unfold integer
  split
  · exact holds_binary .sub (here_index 0) (List.forall_mem_singleton.mp h)
  · exact holds_pair (i := .binary .add) (fun _ _ => rfl) h
  · exact holds_pair (i := .binary .sub) (fun _ _ => rfl) h
  · exact holds_pair (i := .binary .mul) (fun _ _ => rfl) h
  · exact holds_floorDiv (hpair rfl).1 (hpair rfl).2
  · exact holds_mod (hpair rfl).1 (hpair rfl).2
  · exact holds_magnitude (List.forall_mem_singleton.mp h)
  · exact holds_extreme .slt (hpair rfl).1 (hpair rfl).2
  · exact holds_extreme .sgt (hpair rfl).1 (hpair rfl).2
  · exact .throw _

/-- A function is declared after the one under construction. -/
theorem holds_intrinsic (stem : String) (arity : Nat) :
    w.Holds (Assembling.intrinsic stem arity) fun _ _ => True := by
  unfold Assembling.intrinsic
  have hmodify : w.Holds (modify fun a : Assembly =>
      if a.declared.contains ("llvm." ++ stem ++ ".f64") then a
      else { a with
        declared := a.declared ++ ["llvm." ++ stem ++ ".f64"]
        pending := a.pending ++ [.declare ("llvm." ++ stem ++ ".f64") arity] }) fun _ _ => True := by
    apply holds_modify
    · split
      · exact ⟨rfl, rfl, rfl, rfl, rfl, rfl⟩
      · exact ⟨rfl, rfl, rfl, rfl, rfl, rfl⟩
    · intro v hv
      split at hv
      · exact w.cached v hv
      · exact w.cached v hv
    · intro item hitem
      split at hitem
      · exact w.declares item hitem
      · cases List.mem_append.mp hitem with
        | inl hold => exact w.declares item hold
        | inr hnew => exact ⟨_, _, List.mem_singleton.mp hnew⟩
  exact hmodify.bind fun _ _ _ _ => .pure trivial

theorem holds_call (stem : String) {arguments : List Value} (h : ∀ v ∈ arguments, w.Here v) :
    w.Holds (Assembling.call stem arguments) Here := by
  refine (holds_intrinsic stem _).bind fun w₁ name b₁ _ => ?_
  exact holds_emit (i := .call name arguments) fun v hv => b₁.here (h v hv)

theorem holds_fractional (op : Op) {operands : List Value} (h : ∀ v ∈ operands, w.Here v) :
    w.Holds (fractional op operands) Here := by
  have hpair : ∀ {x y}, operands = [x, y] → w.Here x ∧ w.Here y := by
    intro x y heq
    rw [heq] at h
    exact ⟨h x (by simp), h y (by simp)⟩
  unfold fractional
  split
  · exact holds_emit (i := .negate _) h
  · exact holds_pair (i := .binary .fadd) (fun _ _ => rfl) h
  · exact holds_pair (i := .binary .fsub) (fun _ _ => rfl) h
  · exact holds_pair (i := .binary .fmul) (fun _ _ => rfl) h
  · exact holds_pair (i := .binary .fdiv) (fun _ _ => rfl) h
  · refine (holds_pair (i := .binary .fdiv) (fun _ _ => rfl) h).bind fun w₁ q _ hq => ?_
    refine (holds_call "floor" (List.forall_mem_singleton.mpr hq)).bind fun w₂ r _ hr => ?_
    exact holds_cast .fptosi hr .i64
  · obtain ⟨hx, hy⟩ := hpair rfl
    refine (holds_binary .frem hx hy).bind fun w₁ r b₁ hr => ?_
    refine (holds_compareReal .olt hr (knows_constant (.real .zero))).bind fun w₂ negative b₂ hnegative => ?_
    have hy₂ := (b₁.trans b₂).here hy
    refine (holds_call "fabs" (List.forall_mem_singleton.mpr hy₂)).bind fun w₃ size b₃ hsize => ?_
    have hr₃ := (b₂.trans b₃).here hr
    refine (holds_binary .fadd hr₃ hsize).bind fun w₄ more b₄ hmore => ?_
    exact holds_select ((b₃.trans b₄).here hnegative) hmore (b₄.here hr₃)
  · exact holds_call "pow" h
  · exact holds_call "fabs" h
  · exact holds_call "minnum" h
  · exact holds_call "maxnum" h
  · split
    · exact holds_call _ h
    · exact .throw _
  · exact .throw _

theorem holds_primitive (op : Op) (operand : ValueType) {operands : List Value} (h : ∀ v ∈ operands, w.Here v) :
    w.Holds (primitive op operand operands) Here := by
  unfold primitive
  split
  · exact holds_logical op h
  · exact holds_pair (i := .compareInt (intPredicate op)) (fun _ _ => rfl) h
  · exact holds_pair (i := .compareReal (realPredicate op)) (fun _ _ => rfl) h
  · exact holds_integer op h
  · exact holds_fractional op h

/-! ### Control -/

theorem holds_temporary (type : ValueType) : w.Holds (temporary type) Here := by
  unfold temporary
  refine (holds_typeOf type).bind fun w₁ t _ _ => ?_
  have halloca : ∀ v ∈ (Instruction.alloca t).operands, w₁.Knows 0 v := nofun
  refine (holds_emitTo_entry halloca).bind fun w₂ slot _ hslot => ?_
  have hstore : ∀ v ∈ (Instruction.store (constant (Constant.zero type)) slot).operands, w₂.Knows 0 v :=
    List.forall_mem_cons.mpr ⟨knows_constant _, List.forall_mem_singleton.mpr hslot⟩
  refine (holds_emitTo_entry hstore).bind fun w₃ _ b₃ _ => ?_
  exact .pure (here_of_entry (b₃.knows_entry hslot))

theorem holds_use {slot : Value} (hslot : w.Here slot) : w.Holds (use slot) Here := by
  unfold use
  split
  · exact holds_load _ hslot
  · exact .throw _

theorem isStem_of_all {stem : String} (h : stem.toList.all (fun c => !c.isDigit) = true) : IsStem stem := by
  intro c hc
  have hdigit := List.all_eq_true.mp h c hc
  rwa [Bool.not_eq_true'] at hdigit

/-- An arm of a conditional ends with a jump to where the arms meet. -/
theorem steps_arm {α : Type} {arm : Assembling Unit} {w₀ : Construction} {b : Nat} {l : String}
    (hgrows : Grows w₀ w) (hunder : w.Under w₀.current b) (hleads : w.Leads w₀.current l)
    (harm : ∀ w', Below w₀ w' → w'.Holds arm fun _ _ => True) {f : Assembling α}
    {Q : Construction → α → Prop}
    (hrest : ∀ w', Grows w w' → (∀ c, w'.Open c → w.Open c ∧ c ≠ b) → w'.Steps f Q) :
    w.Steps (do
      Assembling.enter b
      arm
      Assembling.leave (.jump l)
      f) Q := by
  have hlt : w₀.current < w.blocks.size := w₀.current_lt.trans_le hgrows.size
  refine (steps_enter hunder.lt).bind fun w₁ _ g₁ h₁ => ?_
  have hbelow₁ : Below w₀ w₁ := by
    apply (hgrows.trans g₁).below_of_under
    rw [h₁.1]
    exact g₁.under hlt hunder
  refine Steps.bind (harm w₁ hbelow₁) fun w₂ _ g₂ h₂ => ?_
  have hbelow₂ : Below w₀ w₂ := hbelow₁.trans h₂.1.toBelow
  have hjump : w₂.Leads w₂.current l := hbelow₂.leads ((g₁.trans g₂).leads hlt hleads)
  refine (steps_jump hjump).bind fun w₃ _ g₃ h₃ => ?_
  refine hrest w₃ (g₁.trans (g₂.trans g₃)) fun c hc => ?_
  obtain ⟨hopen₂, hne⟩ := h₃.2 c hc
  obtain ⟨hopen₁, hne₁⟩ := (h₂.1.opens c hopen₂).resolve_left hne
  exact ⟨h₁.2 c hopen₁, h₁.1 ▸ hne₁⟩

theorem holds_branch {condition : Value} (hcondition : w.Here condition) {first second : Assembling Unit}
    (hfirst : ∀ w', Below w w' → w'.Holds first fun _ _ => True)
    (hsecond : ∀ w', Below w w' → w'.Holds second fun _ _ => True) :
    w.Holds (branch condition first second) fun _ _ => True := by
  unfold branch
  refine (steps_block "then" (isStem_of_all (by decide)) w.current_lt).bind fun w₁ x₁ g₁ p₁ => ?_
  have hlt₁ : w.current < w₁.blocks.size := w.current_lt.trans_le g₁.size
  refine (steps_block "else" (isStem_of_all (by decide)) hlt₁).bind fun w₂ x₂ g₂ p₂ => ?_
  have hlt₂ : w.current < w₂.blocks.size := hlt₁.trans_le g₂.size
  refine (steps_block "merge" (isStem_of_all (by decide)) hlt₂).bind fun w₃ x₃ g₃ p₃ => ?_
  have hlt₃ : w.current < w₃.blocks.size := hlt₂.trans_le g₃.size
  have g : Grows w w₃ := g₁.trans (g₂.trans g₃)
  have hcurrent : w₃.current = w.current := p₃.current.trans (p₂.current.trans p₁.current)
  have hthen : w₃.Leads w₃.current x₁.2 := hcurrent ▸ (g₂.trans g₃).leads hlt₁ p₁.leads
  have helse : w₃.Leads w₃.current x₂.2 := hcurrent ▸ g₃.leads hlt₂ p₂.leads
  refine (steps_leave (t := .branch condition x₁.2 x₂.2)
    (List.forall_mem_singleton.mpr ((g.below hcurrent).here hcondition))
    (List.forall_mem_cons.mpr ⟨hthen, List.forall_mem_singleton.mpr helse⟩)).bind fun w₄ _ g₄ h₄ => ?_
  have hmerge : w₄.Leads w.current x₃.2 := g₄.leads hlt₃ p₃.leads
  have hunder₁ : w₄.Under w.current x₁.1 := (g₂.trans (g₃.trans g₄)).under hlt₁ p₁.under
  refine steps_arm (g.trans g₄) hunder₁ hmerge hfirst fun w₅ g₅ h₅ => ?_
  have hlt₄ : w.current < w₄.blocks.size := hlt₃.trans_le g₄.size
  have hunder₂ : w₅.Under w.current x₂.1 := (g₃.trans (g₄.trans g₅)).under hlt₂ p₂.under
  refine steps_arm (g.trans (g₄.trans g₅)) hunder₂ (g₅.leads hlt₄ hmerge) hsecond fun w₆ g₆ h₆ => ?_
  have hunder₃ : w₆.Under w.current x₃.1 := (g₄.trans (g₅.trans g₆)).under hlt₃ p₃.under
  refine (steps_enter hunder₃.lt).imp fun w₇ _ g₇ h₇ => ⟨⟨?_, fun c hc => ?_⟩, trivial⟩
  · apply (g.trans (g₄.trans (g₅.trans (g₆.trans g₇)))).below_of_under
    rw [h₇.1]
    exact g₇.under (hlt₄.trans_le (g₅.trans g₆).size) hunder₃
  · -- The blocks of both arms have been ended, and so has the one from before.
    obtain ⟨hopen₅, hne₂⟩ := h₆ c (h₇.2 c hc)
    obtain ⟨hopen₄, hne₁⟩ := h₅ c hopen₅
    obtain ⟨hopen₃, hne⟩ := h₄.2 c hopen₄
    rw [hcurrent] at hne
    cases p₃.opens c hopen₃ with
    | inr heq => exact .inl (heq.trans h₇.1.symm)
    | inl hopen₂ =>
      have hopen₁ := (p₂.opens c hopen₂).resolve_right hne₂
      exact .inr ⟨(p₁.opens c hopen₁).resolve_right hne₁, hne⟩

/-- The head of a loop loads the iterator anew, and then decides whether to go on. -/
private theorem steps_head {head : Nat} {inner exit : String} {slot upper : Value} (hhead : head < w.blocks.size)
    (hslot : w.Knows 0 slot) (hupper : w.Knows head upper) (hinner : w.Leads head inner)
    (hexit : w.Leads head exit) {rest : Value → Assembling Unit} {Q : Construction → Unit → Prop}
    (hrest : ∀ w' iterator, Grows w w' → w'.Knows head iterator → (∀ c, w'.Open c → w.Open c ∧ c ≠ head) →
      w'.Steps (rest iterator) Q) :
    w.Steps (do
      let iterator ← emitTo head (.load .i64 slot)
      let more ← emitTo head (.compareInt .sle iterator upper)
      Assembling.close head (.branch more inner exit)
      rest iterator) Q := by
  have hload : ∀ v ∈ (Instruction.load .i64 slot).operands, w.Knows head v :=
    List.forall_mem_singleton.mpr (hslot.of_entry hhead)
  refine (steps_emitTo hhead hload).bind fun w₁ iterator g₁ h₁ => ?_
  obtain ⟨stays₁, hiterator⟩ := h₁
  have hhead₁ : head < w₁.blocks.size := hhead.trans_le g₁.size
  have hcompare : ∀ v ∈ (Instruction.compareInt .sle iterator upper).operands, w₁.Knows head v :=
    List.forall_mem_cons.mpr ⟨hiterator, List.forall_mem_singleton.mpr (g₁.knows hhead hupper)⟩
  refine (steps_emitTo hhead₁ hcompare).bind fun w₂ more g₂ h₂ => ?_
  obtain ⟨stays₂, hmore⟩ := h₂
  have hhead₂ : head < w₂.blocks.size := hhead₁.trans_le g₂.size
  have htargets : ∀ l ∈ (Terminator.branch more inner exit).targets, w₂.Leads head l :=
    List.forall_mem_cons.mpr ⟨(g₁.trans g₂).leads hhead hinner,
      List.forall_mem_singleton.mpr ((g₁.trans g₂).leads hhead hexit)⟩
  have hoperands := List.forall_mem_singleton.mpr hmore
  refine (steps_close (t := .branch more inner exit) hoperands htargets).bind fun w₃ _ g₃ h₃ => ?_
  refine hrest w₃ iterator (g₁.trans (g₂.trans g₃)) ((g₂.trans g₃).knows hhead₁ hiterator) fun c hc => ?_
  obtain ⟨hopen₂, hne⟩ := h₃.2 c hc
  exact ⟨stays₁.opens c (stays₂.opens c hopen₂), hne⟩

/-- The iterator is known in the body, and what was known before the loop still is after it. -/
theorem holds_loop {lower upper : Value} (hlower : w.Here lower) (hupper : w.Here upper)
    {body : Value → Assembling Unit}
    (hbody : ∀ w' v, Below w w' → w'.Here v → w'.Holds (body v) fun _ _ => True) :
    w.Holds (loop lower upper body) fun _ _ => True := by
  unfold loop
  have halloca : ∀ v ∈ (Instruction.alloca .i64).operands, w.Knows 0 v := fun _ hv => absurd hv List.not_mem_nil
  refine (steps_emitTo w.size_pos halloca).bind fun w₁ slot g₁ h₁ => ?_
  obtain ⟨stays₁, hslot⟩ := h₁
  have hlt₁ : w.current < w₁.blocks.size := w.current_lt.trans_le g₁.size
  -- The head lies below the block before the loop, and both the body and the exit below the head.
  refine (steps_block "loop" (isStem_of_all (by decide)) hlt₁).bind fun w₂ head g₂ p₂ => ?_
  have hlt₂ : w.current < w₂.blocks.size := hlt₁.trans_le g₂.size
  have hhead₂ : head.1 < w₂.blocks.size := p₂.under.lt
  refine (steps_block "body" (isStem_of_all (by decide)) hhead₂).bind fun w₃ inner g₃ p₃ => ?_
  have hhead₃ : head.1 < w₃.blocks.size := hhead₂.trans_le g₃.size
  refine (steps_block "exit" (isStem_of_all (by decide)) hhead₃).bind fun w₄ exit g₄ p₄ => ?_
  have hhead₄ : head.1 < w₄.blocks.size := hhead₃.trans_le g₄.size
  have g₁₄ : Grows w₁ w₄ := g₂.trans (g₃.trans g₄)
  have hcurrent : w₄.current = w.current :=
    p₄.current.trans (p₃.current.trans (p₂.current.trans stays₁.current))
  have hlower₄ : w₄.Here lower := ((g₁.trans g₁₄).below hcurrent).here hlower
  have hstore : ∀ v ∈ (Instruction.store lower slot).operands, w₄.Here v :=
    List.forall_mem_cons.mpr ⟨hlower₄, List.forall_mem_singleton.mpr (here_of_entry (g₁₄.knows_entry hslot))⟩
  refine (steps_run hstore).bind fun w₅ _ g₅ stays₅ => ?_
  have hjump : w₅.Leads w₅.current head.2 := by
    rw [stays₅.current, hcurrent]
    exact (g₃.trans (g₄.trans g₅)).leads hlt₂ p₂.leads
  refine (steps_jump hjump).bind fun w₆ _ g₆ h₆ => ?_
  have g₄₆ : Grows w₄ w₆ := g₅.trans g₆
  have g₂₆ : Grows w₂ w₆ := g₃.trans (g₄.trans g₄₆)
  have g₀₆ : Grows w w₆ := g₁.trans (g₂.trans g₂₆)
  have hupper₆ : w₆.Knows head.1 upper :=
    (g₀₆.knows w.current_lt hupper).mono (g₂₆.under hlt₂ p₂.under).subset
  refine steps_head (hhead₄.trans_le g₄₆.size) ((g₁₄.trans g₄₆).knows_entry hslot) hupper₆
    ((g₄.trans g₄₆).leads hhead₃ p₃.leads) (g₄₆.leads hhead₄ p₄.leads) fun w₇ iterator g₇ hiterator h₇ => ?_
  have g₄₇ : Grows w₄ w₇ := g₄₆.trans g₇
  have hhead₇ : w₇.Under w.current head.1 := (g₂₆.trans g₇).under hlt₂ p₂.under
  -- The body is an arm that leads from the head back to the head.
  let w₀ : Construction := w₇.enter head.1 hhead₇.lt
  have hbelow : Below w w₀ :=
    ((g₀₆.trans g₇).trans (grows_enter hhead₇.lt)).below_of_under ⟨hhead₇.lt, hhead₇.subset⟩
  have hinner : w₇.Under head.1 inner.1 := (g₄.trans g₄₇).under hhead₃ p₃.under
  have hback : w₇.Leads head.1 head.2 := (g₃.trans (g₄.trans g₄₇)).leads hhead₂ p₂.leads_self
  have hiteration : ∀ w', Below w₀ w' → w'.Holds (do
      body iterator
      run (.store (← emit (.binary .add iterator one)) slot)) fun _ _ => True := by
    intro w' hbelow'
    have hiterator' : w'.Here iterator := hbelow'.here hiterator
    refine (hbody w' iterator (hbelow.trans hbelow') hiterator').bind fun w'' _ b'' _ => ?_
    refine (holds_binary .add (b''.here hiterator') (here_index 1)).bind fun w₈ next b₈ hnext => ?_
    have hgrows : Grows w₁ w₈ := g₁₄.trans (g₄₇.trans
      ((grows_enter hhead₇.lt).trans (hbelow'.toGrows.trans (b''.toGrows.trans b₈.toGrows))))
    exact holds_store hnext (here_of_entry (hgrows.knows_entry hslot))
  have hloop := steps_arm (Q := fun w' _ => Later w w' ∧ True) (f := Assembling.enter exit.1)
    (enter_grows hhead₇.lt) hinner hback hiteration fun w₈ g₈ h₈ => ?_
  · simp only [bind_assoc] at hloop
    exact hloop
  · have hlt₇ : w.current < w₇.blocks.size := w.current_lt.trans_le (g₀₆.trans g₇).size
    have hexit : w₈.Under w.current exit.1 :=
      (g₈.under hlt₇ hhead₇).trans ((g₄₇.trans g₈).under hhead₄ p₄.under)
    refine (steps_enter hexit.lt).imp fun w₉ _ g₉ h₉ => ⟨⟨?_, fun c hc => ?_⟩, trivial⟩
    · apply ((g₀₆.trans g₇).trans (g₈.trans g₉)).below_of_under
      rw [h₉.1]
      exact g₉.under (hlt₇.trans_le g₈.size) hexit
    · obtain ⟨hopen₇, hne_inner⟩ := h₈ c (h₉.2 c hc)
      obtain ⟨hopen₆, hne_head⟩ := h₇ c hopen₇
      obtain ⟨hopen₅, hne⟩ := h₆.2 c hopen₆
      rw [stays₅.current, hcurrent] at hne
      cases p₄.opens c (stays₅.opens c hopen₅) with
      | inr heq => exact .inl (heq.trans h₉.1.symm)
      | inl hopen₃ =>
        have hopen₂ := (p₃.opens c hopen₃).resolve_right hne_inner
        have hopen₁ := (p₂.opens c hopen₂).resolve_right hne_head
        exact .inr ⟨stays₁.opens c hopen₁, hne⟩

/-! ### The discipline -/

variable [Arithmetic]

/-- All values are known where they are used. -/
def discipline (model : Model) : Lowering.Discipline model (target model) where
  World := Construction
  Later := Below
  Holds := Holds
  refl w := (Grows.refl w).below rfl
  trans h h' := h.trans h'
  pure h := .pure h
  throw e := .throw e
  bind h hf := h.bind hf
  imp h himp := h.imp fun w' x _ => himp w' x
  Index := Here
  Element _ := Here
  Cell _ := Here
  Fits _ := True
  index_later h hv := h.here hv
  element_later h hv := h.here hv
  cell_later h hv := h.here hv
  element_of_index h := h
  fits_operand _ _ _ := trivial
  fits_body _ := trivial
  constant c := .pure (knows_constant c)
  convert hv := holds_convert hv _ _
  index c := .pure (here_index c)
  indexAdd hu hv := holds_indexAdd hu hv
  indexMul hu hv := holds_indexMul hu hv
  indexMod hv modulus := holds_indexMod hv modulus
  phase array := holds_phase array
  period := holds_load .i64 (knows_parameter _ _)
  load _ _ h := holds_loadOf _ h
  read _ _ h := holds_loadOf _ h
  store _ _ _ h hv := holds_storeTo _ h hv
  loadInput _ _ h := holds_loadInput _ h
  storeOutput h hv := holds_storeOutput h hv
  primitive _ _ _ hvs := holds_primitive _ _ hvs
  fold _ _ _ hu hv := holds_primitive _ _ (List.forall_mem_cons.mpr ⟨hu, List.forall_mem_singleton.mpr hv⟩)
  temporary τ := holds_temporary τ
  assign hcell hv := holds_store hv hcell
  use hcell := holds_use hcell
  branch hcondition _ _ hfirst hsecond := holds_branch hcondition hfirst hsecond
  loop hbody := holds_loop (here_index _) (here_index _) hbody
  note _ := holds_modify ⟨rfl, rfl, rfl, rfl, rfl, rfl⟩ (fun v hv => cached _ v hv) (declares _)

end StreamLoom.Llvm.Construction
