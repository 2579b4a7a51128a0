import StreamLoom.Llvm.Generation
import StreamLoom.Proofs.Affine.Modular
import StreamLoom.Proofs.Llvm.Registers

/-!
# Integer arithmetic in registers

Quotients that are rounded down or up and remainders that are never negative are made of truncating
instructions, comparisons and choices. Sums, products and remainders of indices are computed at once where
the operands are known; the remainder of a literal adds the divisor first, which leaves the words when
both are large.
-/

namespace StreamLoom

attribute [local instance] Arithmetic.word64

/-! ### Words -/

def IsWord (x : Int) : Prop := -0x8000000000000000 ≤ x ∧ x < 0x8000000000000000

theorem IsWord.wrap_eq {x : Int} (h : IsWord x) : Arithmetic.wrap x = x := Arithmetic.wrap_of_mem h.1 h.2

theorem isWord_toInt (w : BitVec 64) : IsWord w.toInt := by
  have hlow := BitVec.le_toInt w
  have hhigh := BitVec.toInt_lt (x := w)
  constructor <;> omega

theorem toInt_ofInt_wrap (x : Int) : (BitVec.ofInt 64 x).toInt = Arithmetic.wrap x := by
  rw [BitVec.toInt_ofInt, Arithmetic.wrap_eq_bmod]

section

variable {a b : Int}

/-- Rounding down takes one from the truncated quotient when a negative remainder is left. -/
theorem fdiv_eq_tdiv_sub (hb : 0 < b) :
    a.fdiv b = if a.tmod b < 0 then a.tdiv b - 1 else a.tdiv b := by
  have hdvd : b ∣ a ↔ a % b = 0 := Int.dvd_iff_emod_eq_zero
  have hnonneg := Int.emod_nonneg a hb.ne'
  have hlt := Int.emod_lt_of_pos a hb
  rw [Int.fdiv_eq_ediv, Int.tdiv_eq_ediv, Int.tmod_eq_emod, Int.sign_eq_one_of_pos hb]
  simp only [hdvd]
  split <;> split <;> split <;> omega

/-- Rounding up adds one to the truncated quotient when a positive remainder is left. -/
theorem neg_fdiv_neg_eq_tdiv_add (hb : 0 < b) :
    -(-a).fdiv b = if 0 < a.tmod b then a.tdiv b + 1 else a.tdiv b := by
  have hdvd : b ∣ a ↔ a % b = 0 := Int.dvd_iff_emod_eq_zero
  have hnonneg := Int.emod_nonneg a hb.ne'
  have hlt := Int.emod_lt_of_pos a hb
  rw [Int.fdiv_eq_ediv_of_nonneg _ hb.le, Int.tdiv_eq_ediv, Int.tmod_eq_emod, Int.neg_ediv,
    Int.sign_eq_one_of_pos hb]
  simp only [hdvd]
  split <;> split <;> split <;> omega

/-- A negative remainder of a truncated quotient becomes one that is not by adding the divisor. -/
theorem emod_eq_tmod_add (hb : 0 < b) : a % b = if a.tmod b < 0 then a.tmod b + b else a.tmod b := by
  have hdvd : b ∣ a ↔ a % b = 0 := Int.dvd_iff_emod_eq_zero
  have hnonneg := Int.emod_nonneg a hb.ne'
  have hlt := Int.emod_lt_of_pos a hb
  rw [Int.tmod_eq_emod]
  simp only [hdvd]
  split <;> split <;> omega

theorem isWord_fdiv (ha : IsWord a) (hb : 0 < b) : IsWord (a.fdiv b) := by
  obtain ⟨hlow, hhigh⟩ := ha
  rw [Int.fdiv_eq_ediv_of_nonneg _ hb.le]
  constructor
  · apply (Int.le_ediv_iff_mul_le hb).mpr
    omega
  · apply (Int.ediv_lt_iff_lt_mul hb).mpr
    omega

theorem isWord_neg_fdiv_neg (ha : IsWord a) (hb : 0 < b) : IsWord (-(-a).fdiv b) := by
  obtain ⟨hlow, hhigh⟩ := ha
  rw [Int.fdiv_eq_ediv_of_nonneg _ hb.le]
  have hleast : -0x7fffffffffffffff ≤ -a / b := by
    apply (Int.le_ediv_iff_mul_le hb).mpr
    omega
  have hgreatest : -a / b < 0x8000000000000001 := by
    apply (Int.ediv_lt_iff_lt_mul hb).mpr
    omega
  constructor <;> omega

end

namespace Arithmetic

variable {b : Int}

theorem floorDiv?_exact (a : Int) (hb : 0 < b) : @floorDiv? exact a b = .ok (a.fdiv b) :=
  @floorDiv?_eq exact b hb.ne' a

theorem ceilDiv?_exact (a : Int) (hb : 0 < b) : @ceilDiv? exact a b = .ok (-(-a).fdiv b) :=
  @ceilDiv?_eq exact b hb.ne' a

end Arithmetic

namespace Llvm

/-! ### Values -/

def Value.integer? (ρ : Registers) (v : Value) : Option Int :=
  match v.datum? ρ with
  | some (.word w) => some w.toInt
  | _ => none

def Value.truth? (ρ : Registers) (v : Value) : Option Bool :=
  match v.datum? ρ with
  | some (.bit b) => some b
  | _ => none

variable {ρ ρ' : Registers} {v : Value}

theorem integer?_eq_some {x : Int} :
    v.integer? ρ = some x ↔ ∃ w, v.datum? ρ = some (.word w) ∧ w.toInt = x := by
  unfold Value.integer?
  split
  · rename_i w hw
    simp [hw]
  · rename_i hnone
    constructor
    · intro h
      cases h
    · intro ⟨w, hw, _⟩
      exact absurd hw (hnone w)

theorem truth?_eq_some {b : Bool} : v.truth? ρ = some b ↔ v.datum? ρ = some (.bit b) := by
  unfold Value.truth?
  split
  · rename_i c hc
    simp [hc]
  · rename_i hnone
    constructor
    · intro h
      cases h
    · intro h
      exact absurd h (hnone b)

theorem Registers.Keeps.integer? (h : ρ.Keeps ρ') {x : Int} (hv : v.integer? ρ = some x) :
    v.integer? ρ' = some x := by
  obtain ⟨w, hw, hx⟩ := integer?_eq_some.mp hv
  exact integer?_eq_some.mpr ⟨w, h.datum? hw, hx⟩

theorem Registers.Keeps.truth? (h : ρ.Keeps ρ') {b : Bool} (hv : v.truth? ρ = some b) :
    v.truth? ρ' = some b := truth?_eq_some.mpr (h.datum? (truth?_eq_some.mp hv))

theorem isWord_of_integer? {x : Int} (h : v.integer? ρ = some x) : IsWord x := by
  obtain ⟨w, _, rfl⟩ := integer?_eq_some.mp h
  exact isWord_toInt w

theorem integer?_index (ρ : Registers) (x : Int) : (Value.index x).integer? ρ = some (Arithmetic.wrap x) := by
  rw [← toInt_ofInt_wrap]
  rfl

def Stands (x : Int) (ρ : Registers) (v : Value) : Prop := v.integer? ρ = some x

def Tells (b : Bool) (ρ : Registers) (v : Value) : Prop := v.truth? ρ = some b

/-! ### Instructions -/

def IntPredicate.compare (x y : Int) : IntPredicate → Bool
  | eq => x == y
  | ne => x != y
  | slt => x < y
  | sle => x ≤ y
  | sgt => y < x
  | sge => y ≤ x

theorem holds_eq_compare (p : IntPredicate) (x y : BitVec 64) :
    p.holds x y = p.compare x.toInt y.toInt := by
  have heq : (x == y) = (x.toInt == y.toInt) := by
    rw [Bool.eq_iff_iff, beq_iff_eq, beq_iff_eq, BitVec.toInt_inj]
  cases p with
  | eq => exact heq
  | ne => exact congrArg (!·) heq
  | slt => exact BitVec.slt_eq_decide
  | sle => exact BitVec.sle_eq_decide
  | sgt => exact BitVec.slt_eq_decide
  | sge => exact BitVec.sle_eq_decide

variable {s : Spot} {x y : Value} {a b : Int}

/-- An instruction on words computes what its operation does. -/
private theorem gives_words {op : BinaryOp} {c : Int} (hx : Stands a s.registers x)
    (hy : Stands b s.registers y)
    (hop : ∀ v w : BitVec 64, v.toInt = a → w.toInt = b → ∃ u, op.onWords? v w = some u ∧ u.toInt = c) :
    Gives (Assembling.emit (.binary op x y)) s (Stands c) := by
  obtain ⟨v, hv, hva⟩ := integer?_eq_some.mp hx
  obtain ⟨w, hw, hwb⟩ := integer?_eq_some.mp hy
  obtain ⟨u, hu, huc⟩ := hop v w hva hwb
  have hresult : (Instruction.binary op x y).result? s.registers = some (.word u) := by
    rw [Instruction.result?, hv, hw]
    exact congrArg (Option.map Datum.word) hu
  exact (gives_emit hresult).imp fun ρ r hr => integer?_eq_some.mpr ⟨u, hr, huc⟩

theorem gives_add (hx : Stands a s.registers x) (hy : Stands b s.registers y) :
    Gives (Assembling.emit (.binary .add x y)) s (Stands (Arithmetic.wrap (a + b))) := by
  apply gives_words hx hy
  rintro v w rfl rfl
  exact ⟨v + w, rfl, by rw [BitVec.toInt_add, Arithmetic.wrap_eq_bmod]⟩

theorem gives_sub (hx : Stands a s.registers x) (hy : Stands b s.registers y) :
    Gives (Assembling.emit (.binary .sub x y)) s (Stands (Arithmetic.wrap (a - b))) := by
  apply gives_words hx hy
  rintro v w rfl rfl
  exact ⟨v - w, rfl, by rw [BitVec.toInt_sub, Arithmetic.wrap_eq_bmod]⟩

theorem gives_mul (hx : Stands a s.registers x) (hy : Stands b s.registers y) :
    Gives (Assembling.emit (.binary .mul x y)) s (Stands (Arithmetic.wrap (a * b))) := by
  apply gives_words hx hy
  rintro v w rfl rfl
  exact ⟨v * w, rfl, by rw [BitVec.toInt_mul, Arithmetic.wrap_eq_bmod]⟩

private theorem divides_of_pos {v w : BitVec 64} (h : 0 < w.toInt) : BinaryOp.divides v w = true := by
  have hzero : (w != 0) = true := by
    rw [bne_iff_ne]
    intro hw
    rw [hw] at h
    exact absurd h (by decide)
  have hone : (w == -1) = false := by
    rw [beq_eq_false_iff_ne]
    intro hw
    rw [hw] at h
    exact absurd h (by decide)
  rw [BinaryOp.divides, hzero, hone, Bool.and_false]
  rfl

theorem gives_sdiv (hx : Stands a s.registers x) (hy : Stands b s.registers y) (hb : 0 < b) :
    Gives (Assembling.emit (.binary .sdiv x y)) s (Stands (a.tdiv b)) := by
  apply gives_words hx hy
  rintro v w rfl rfl
  refine ⟨v.sdiv w, if_pos (divides_of_pos hb), BitVec.toInt_sdiv_of_ne_or_ne v w (.inr ?_)⟩
  rintro rfl
  exact absurd hb (by decide)

theorem gives_srem (hx : Stands a s.registers x) (hy : Stands b s.registers y) (hb : 0 < b) :
    Gives (Assembling.emit (.binary .srem x y)) s (Stands (a.tmod b)) := by
  apply gives_words hx hy
  rintro v w rfl rfl
  exact ⟨v.srem w, if_pos (divides_of_pos hb), BitVec.toInt_srem v w⟩

theorem gives_compare (p : IntPredicate) (hx : Stands a s.registers x) (hy : Stands b s.registers y) :
    Gives (Assembling.emit (.compareInt p x y)) s (Tells (p.compare a b)) := by
  obtain ⟨v, hv, rfl⟩ := integer?_eq_some.mp hx
  obtain ⟨w, hw, rfl⟩ := integer?_eq_some.mp hy
  have hresult : (Instruction.compareInt p x y).result? s.registers =
      some (.bit (p.compare v.toInt w.toInt)) := by
    rw [Instruction.result?, hv, hw, ← holds_eq_compare]
  exact (gives_emit hresult).imp fun ρ r hr => truth?_eq_some.mpr hr

theorem gives_bits {op : BinaryOp} {p q r : Bool} (hop : op.onBits? p q = some r)
    (hx : Tells p s.registers x) (hy : Tells q s.registers y) :
    Gives (Assembling.emit (.binary op x y)) s (Tells r) := by
  have hresult : (Instruction.binary op x y).result? s.registers = some (.bit r) := by
    rw [Instruction.result?, truth?_eq_some.mp hx, truth?_eq_some.mp hy]
    exact congrArg (Option.map Datum.bit) hop
  exact (gives_emit hresult).imp fun ρ r hr => truth?_eq_some.mpr hr

theorem gives_select {p : Bool} (hv : Tells p s.registers v) (hx : Stands a s.registers x)
    (hy : Stands b s.registers y) :
    Gives (Assembling.emit (.select v x y)) s (Stands (if p then a else b)) := by
  obtain ⟨w, hw, hwa⟩ := integer?_eq_some.mp hx
  obtain ⟨u, hu, hub⟩ := integer?_eq_some.mp hy
  have hresult : (Instruction.select v x y).result? s.registers = some (.word (if p then w else u)) := by
    rw [Instruction.result?, truth?_eq_some.mp hv, hw, hu]
    cases p <;> rfl
  refine (gives_emit hresult).imp fun ρ r hr => integer?_eq_some.mpr ⟨_, hr, ?_⟩
  cases p
  · exact hub
  · exact hwa

/-! ### Quotients and remainders -/

theorem stands_zero (ρ : Registers) : Stands 0 ρ zero := rfl

theorem stands_one (ρ : Registers) : Stands 1 ρ one := rfl

theorem gives_floorDiv (hx : Stands a s.registers x) (hy : Stands b s.registers y) (hb : 0 < b) :
    Gives (floorDiv x y) s (Stands (a.fdiv b)) := by
  have ha : IsWord a := isWord_of_integer? hx
  unfold floorDiv
  refine (gives_sdiv hx hy hb).bind fun q s₁ k₁ hq => ?_
  refine (gives_srem (k₁.integer? hx) (k₁.integer? hy) hb).bind fun r s₂ k₂ hr => ?_
  refine (gives_compare .ne hr (stands_zero _)).bind fun inexact s₃ k₃ hinexact => ?_
  refine (gives_compare .slt (k₃.integer? hr) (stands_zero _)).bind fun negative s₄ k₄ hnegative => ?_
  have hy₄ : Stands b s₄.registers y := k₄.integer? (k₃.integer? (k₂.integer? (k₁.integer? hy)))
  have hq₄ : Stands (a.tdiv b) s₄.registers q := k₄.integer? (k₃.integer? (k₂.integer? hq))
  refine (gives_compare .slt hy₄ (stands_zero _)).bind fun divisor s₅ k₅ hdivisor => ?_
  refine (gives_bits rfl (k₅.truth? hnegative) hdivisor).bind fun signs s₆ k₆ hsigns => ?_
  have hinexact₆ := k₆.truth? (k₅.truth? (k₄.truth? hinexact))
  refine (gives_bits rfl hinexact₆ hsigns).bind fun both s₇ k₇ hboth => ?_
  have hq₇ : Stands (a.tdiv b) s₇.registers q := k₇.integer? (k₆.integer? (k₅.integer? hq₄))
  refine (gives_sub hq₇ (stands_one _)).bind fun less s₈ k₈ hless => ?_
  refine (gives_select (k₈.truth? hboth) hless (k₈.integer? hq₇)).imp fun ρ v hv => ?_
  -- With a positive divisor both conditions hold just when the remainder is negative.
  have hcondition : (IntPredicate.compare (a.tmod b) 0 .ne &&
      (IntPredicate.compare (a.tmod b) 0 .slt ^^ IntPredicate.compare b 0 .slt)) = decide (a.tmod b < 0) := by
    have hpos : ¬ b < 0 := by omega
    by_cases hneg : a.tmod b < 0
    · simp [IntPredicate.compare, hpos, hneg, hneg.ne]
    · simp [IntPredicate.compare, hpos, hneg]
  have hfdiv := fdiv_eq_tdiv_sub (a := a) hb
  rw [hcondition] at hv
  simp only [decide_eq_true_eq] at hv
  split at hfdiv
  · rename_i hneg
    rw [if_pos hneg, ← hfdiv, (isWord_fdiv ha hb).wrap_eq] at hv
    exact hv
  · rename_i hneg
    rw [if_neg hneg, ← hfdiv] at hv
    exact hv

theorem gives_ceilDiv (hx : Stands a s.registers x) (hy : Stands b s.registers y) (hb : 0 < b) :
    Gives (ceilDiv x y) s (Stands (-(-a).fdiv b)) := by
  have ha : IsWord a := isWord_of_integer? hx
  unfold ceilDiv
  refine (gives_sdiv hx hy hb).bind fun q s₁ k₁ hq => ?_
  refine (gives_srem (k₁.integer? hx) (k₁.integer? hy) hb).bind fun r s₂ k₂ hr => ?_
  refine (gives_compare .sgt hr (stands_zero _)).bind fun positive s₃ k₃ hpositive => ?_
  have hq₃ : Stands (a.tdiv b) s₃.registers q := k₃.integer? (k₂.integer? hq)
  refine (gives_add hq₃ (stands_one _)).bind fun more s₄ k₄ hmore => ?_
  refine (gives_select (k₄.truth? hpositive) hmore (k₄.integer? hq₃)).imp fun ρ v hv => ?_
  have hup := neg_fdiv_neg_eq_tdiv_add (a := a) hb
  simp only [IntPredicate.compare, decide_eq_true_eq] at hv
  split at hup
  · rename_i hpos
    rw [if_pos hpos, ← hup, (isWord_neg_fdiv_neg ha hb).wrap_eq] at hv
    exact hv
  · rename_i hpos
    rw [if_neg hpos, ← hup] at hv
    exact hv

private theorem gives_corrected {r size : Value} (hr : Stands (a.tmod b) s.registers r)
    (hsize : Stands b s.registers size) (hb : 0 < b) :
    Gives (do
      let negative ← Assembling.emit (.compareInt .slt r zero)
      let more ← Assembling.emit (.binary .add r size)
      Assembling.emit (.select negative more r)) s (Stands (a % b)) := by
  have hbword : IsWord b := isWord_of_integer? hsize
  refine (gives_compare .slt hr (stands_zero _)).bind fun negative s₁ k₁ hnegative => ?_
  refine (gives_add (k₁.integer? hr) (k₁.integer? hsize)).bind fun more s₂ k₂ hmore => ?_
  have hr₂ : Stands (a.tmod b) s₂.registers r := k₂.integer? (k₁.integer? hr)
  refine (gives_select (k₂.truth? hnegative) hmore hr₂).imp fun ρ v hv => ?_
  have hnonneg := Int.emod_nonneg a hb.ne'
  have hlt := Int.emod_lt_of_pos a hb
  have hword : IsWord (a % b) := ⟨by omega, lt_trans hlt hbword.2⟩
  have hmod := emod_eq_tmod_add (a := a) hb
  simp only [IntPredicate.compare, decide_eq_true_eq] at hv
  split at hmod
  · rename_i hneg
    rw [if_pos hneg, ← hmod, hword.wrap_eq] at hv
    exact hv
  · rename_i hneg
    rw [if_neg hneg, ← hmod] at hv
    exact hv

/-- The remainder by a positive divisor is never negative. -/
theorem gives_mod (hx : Stands a s.registers x) (hy : Stands b s.registers y) (hb : 0 < b) :
    Gives (mod x y) s (Stands (a % b)) := by
  unfold mod
  refine (gives_srem hx hy hb).bind fun r s₁ k₁ hr => ?_
  have hy₁ : Stands b s₁.registers y := k₁.integer? hy
  dsimp only
  split
  · exact (Gives.pure hy₁).bind fun size s₂ k₂ hsize => gives_corrected (k₂.integer? hr) hsize hb
  · refine (gives_compare .slt hy₁ (stands_zero _)).bind fun negative s₂ k₂ hnegative => ?_
    have hy₂ : Stands b s₂.registers y := k₂.integer? hy₁
    refine (gives_sub (stands_zero _) hy₂).bind fun opposite s₃ k₃ hopposite => ?_
    refine (gives_select (k₃.truth? hnegative) hopposite (k₃.integer? hy₂)).bind fun size s₄ k₄ hsize => ?_
    rw [IntPredicate.compare, decide_eq_false hb.not_gt] at hsize
    exact gives_corrected (k₄.integer? (k₃.integer? (k₂.integer? hr))) hsize hb

/-! ### Indices -/

theorem integer?_of_literal? {c : Int} (h : v.literal? = some c) : v.integer? ρ = some (Arithmetic.wrap c) := by
  unfold Value.literal? at h
  split at h
  · cases h
    exact integer?_index ρ c
  · cases h

theorem stands_literal {c : Int} (h : v.literal? = some c) (hv : Stands a ρ v) : a = Arithmetic.wrap c :=
  Option.some.inj (hv.symm.trans (integer?_of_literal? h))

theorem stands_index {c : Int} (h : IsWord c) (ρ : Registers) : Stands c ρ (.index c) :=
  (integer?_index ρ c).trans (congrArg some h.wrap_eq)

/-- A result that is computed at once is kept as a word. -/
private theorem gives_known {c : Int} (h : Arithmetic.wrap a = Arithmetic.wrap c) :
    Gives (pure (.index (Arithmetic.wrap c))) s (Stands (Arithmetic.wrap a)) :=
  .pure ((integer?_index _ _).trans (congrArg some ((Arithmetic.fit_fit c).trans h.symm)))

theorem gives_indexAdd (hx : Stands a s.registers x) (hy : Stands b s.registers y) :
    Gives (indexAdd x y) s (Stands (Arithmetic.wrap (a + b))) := by
  have ha : Arithmetic.wrap a = a := (isWord_of_integer? hx).wrap_eq
  have hb : Arithmetic.wrap b = b := (isWord_of_integer? hy).wrap_eq
  unfold indexAdd
  split
  · rename_i c d hc hd
    apply gives_known
    rw [stands_literal hc hx, stands_literal hd hy]
    exact (Arithmetic.fit_add ..).trans (Arithmetic.fit_add_right ..)
  · rename_i hd
    rw [show b = 0 from stands_literal hd hy, Int.add_zero, ha]
    exact .pure hx
  · rename_i hc _
    rw [show a = 0 from stands_literal hc hx, Int.zero_add, hb]
    exact .pure hy
  · exact gives_add hx hy

theorem gives_indexMul (hx : Stands a s.registers x) (hy : Stands b s.registers y) :
    Gives (indexMul x y) s (Stands (Arithmetic.wrap (a * b))) := by
  have ha : Arithmetic.wrap a = a := (isWord_of_integer? hx).wrap_eq
  have hb : Arithmetic.wrap b = b := (isWord_of_integer? hy).wrap_eq
  unfold indexMul
  split
  · rename_i c d hc hd
    apply gives_known
    rw [stands_literal hc hx, stands_literal hd hy]
    exact (Arithmetic.fit_mul ..).trans (Arithmetic.fit_mul_right ..)
  · rename_i hd
    rw [show b = 1 from stands_literal hd hy, Int.mul_one, ha]
    exact .pure hx
  · rename_i hc _
    rw [show a = 1 from stands_literal hc hx, Int.one_mul, hb]
    exact .pure hy
  · exact gives_mul hx hy

/-- The remainder of a literal is right unless adding the divisor leaves the words. -/
theorem tmod_wrap_eq_iff (hb : 0 < b) (hword : IsWord b) :
    (Arithmetic.wrap (a.tmod b + b)).tmod b = a % b ↔ a.tmod b + b < 0x8000000000000000 := by
  obtain ⟨-, hbhigh⟩ := hword
  have hlow := Int.lt_tmod_of_pos a hb
  have hhigh := Int.tmod_lt_of_pos a hb
  by_cases hfits : a.tmod b + b < 0x8000000000000000
  · rw [Arithmetic.wrap_of_mem (by omega) hfits]
    apply iff_of_true _ hfits
    rw [Int.tmod_eq_emod_of_nonneg (by omega), Int.add_emod_right]
    rw [Int.tmod_def, Int.sub_mul_emod_self_left]
  · apply iff_of_false _ hfits
    intro heq
    -- What has wrapped around is negative, and so is its remainder, whereas that of the literal is not.
    have hwrap : Arithmetic.wrap (a.tmod b + b) ≤ 0 := by
      rw [Arithmetic.wrap_eq_bmod, Int.bmod_def]
      omega
    have hpos : 0 < a.tmod b := by omega
    have hmod := emod_eq_tmod_add (a := a) hb
    rw [if_neg hpos.not_gt] at hmod
    have hneg : (Arithmetic.wrap (a.tmod b + b)).tmod b ≤ 0 := by
      rw [← Int.neg_neg (Arithmetic.wrap _), Int.neg_tmod]
      have := Int.tmod_nonneg b (show 0 ≤ -Arithmetic.wrap (a.tmod b + b) by omega)
      omega
    omega

theorem literalMod_eq (c : Int) {m : Int} (hm : 0 < m) :
    literalMod c m = .ok ((Arithmetic.wrap (c.tmod m + m)).tmod m) := by
  rw [literalMod, Arithmetic.nonzero_eq_ok hm.ne']
  rfl

/-- The remainder of an index by a positive word is the one that is not negative, except where that of a
literal wraps around. -/
theorem gives_indexMod {m : Int} (hv : Stands a s.registers v) (hm : 0 < m) (hword : IsWord m)
    (hliteral : ∀ c, v.literal? = some c → IsWord c) :
    ∃ r, Gives (indexMod v m) s (Stands r) ∧
      (r = a % m ↔ ¬ (v.literal?.isSome ∧ m ≠ 1 ∧ 0x8000000000000000 ≤ a.tmod m + m)) := by
  unfold indexMod
  split
  · rename_i hone
    refine ⟨0, .pure (stands_zero _), ?_⟩
    rw [hone, Int.emod_one]
    simp
  · rename_i hone
    split
    · rename_i c hc
      have hac : a = c := (stands_literal hc hv).trans (hliteral c hc).wrap_eq
      refine ⟨(Arithmetic.wrap (c.tmod m + m)).tmod m, ?_, ?_⟩
      · rw [literalMod_eq c hm]
        have hlow := Int.lt_tmod_of_pos (Arithmetic.wrap (c.tmod m + m)) hm
        have hhigh := Int.tmod_lt_of_pos (Arithmetic.wrap (c.tmod m + m)) hm
        have hmhigh := hword.2
        exact .pure (stands_index ⟨by omega, by omega⟩ _)
      · rw [hac, tmod_wrap_eq_iff hm hword]
        simp [hc, hone]
    · rename_i hc
      refine ⟨a % m, gives_mod hv (stands_index hword _) hm, ?_⟩
      simp [hc]

end Llvm

end StreamLoom
