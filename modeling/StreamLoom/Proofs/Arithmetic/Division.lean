import Mathlib.Algebra.Order.Floor.Ring
import Mathlib.Data.Int.ModEq
import Mathlib.Data.Rat.Floor
import StreamLoom.Proofs.Affine.Difference
import StreamLoom.Proofs.Affine.Modular

/-!
# Division of words

Quotients are rounded down and up, remainders are not negative, and divisors are found by taking remainders.
A machine has none of these operations: it has a quotient which is cut off, a remainder with the sign of the
dividend, and a negation that has no result for the least word. Corrected by one step each, quotients
rounded down and remainders come out right for all words.

What goes wrong does so at the least word, whose negation is itself. A quotient is rounded up by negating the
dividend, so that the least word gives a quotient of the other sign, unless it is divided by one. A divisor
of the least word is found from remainders whose signs alternate, hence it has the right sign only after an
odd number of divisions.
-/

namespace StreamLoom

attribute [local instance] Arithmetic.word64

open Arithmetic (wrap)

/-! ### What a machine does -/

namespace Word

/-- The absolute value, where the least word stands for its own. -/
def abs (x : Int64) : Int64 := if x < 0 then -x else x

/-- The quotient, moved down by one if cutting it off has moved it up. -/
def floorDiv (a b : Int64) : Int64 := if a % b ≠ 0 ∧ ¬ (a < 0 ↔ b < 0) then a / b - 1 else a / b

def ceilDiv (a b : Int64) : Int64 := -floorDiv (-a) b

/-- The remainder, moved up by the divisor if it is negative. -/
def residue (a b : Int64) : Int64 := if a % b < 0 then a % b + abs b else a % b

theorem toInt_ne_zero {b : Int64} (hb : b ≠ 0) : b.toInt ≠ 0 := fun h => hb (Int64.toInt_inj.mp h)

theorem natAbs_mod_lt {b : Int64} (hb : b ≠ 0) (a : Int64) : (a % b).toInt.natAbs < b.toInt.natAbs := by
  have hne := toInt_ne_zero hb
  rw [Int64.toInt_mod, Int.natAbs_tmod]
  exact Nat.mod_lt _ (by omega)

/-- Divides by remainders until one of them is zero. -/
def euclid (a b : Int64) : Int64 := if b = 0 then a else euclid b (a % b)
termination_by b.toInt.natAbs
decreasing_by exact natAbs_mod_lt ‹_› a

def gcd (a b : Int64) : Int64 := euclid (abs a) (abs b)

theorem wrap_toInt (x : Int64) : wrap x.toInt = x.toInt :=
  Arithmetic.wrap_of_mem x.le_toInt x.toInt_lt

theorem toInt_neg (x : Int64) : (-x).toInt = wrap (-x.toInt) := by
  rw [Int64.toInt_neg, Arithmetic.wrap_eq_bmod]

theorem toInt_sub (x y : Int64) : (x - y).toInt = wrap (x.toInt - y.toInt) := by
  rw [Int64.toInt_sub, Arithmetic.wrap_eq_bmod]

theorem toInt_add (x y : Int64) : (x + y).toInt = wrap (x.toInt + y.toInt) := by
  rw [Int64.toInt_add, Arithmetic.wrap_eq_bmod]

theorem toInt_div (x y : Int64) : (x / y).toInt = wrap (x.toInt.tdiv y.toInt) := by
  rw [Int64.toInt_div, Arithmetic.wrap_eq_bmod]

theorem toInt_abs (x : Int64) : (abs x).toInt = Arithmetic.abs x.toInt := by
  unfold abs Arithmetic.abs
  simp only [Int64.lt_iff_toInt_lt, Int64.toInt_zero]
  split
  · exact toInt_neg x
  · rfl

/-- Cutting off a quotient moves it up if there is a remainder and the signs differ. -/
theorem fdiv_eq (a : Int) {b : Int} (hb : b ≠ 0) :
    a.fdiv b = if a.tmod b ≠ 0 ∧ ¬ (a < 0 ↔ b < 0) then a.tdiv b - 1 else a.tdiv b := by
  have hdvd : b ∣ a ↔ a.tmod b = 0 := Int.dvd_iff_tmod_eq_zero
  rw [Int.fdiv_eq_tdiv]
  simp only [hdvd]
  rcases lt_or_gt_of_ne hb with hneg | hpos
  · rw [Int.sign_eq_neg_one_of_neg hneg]
    split_ifs <;> omega
  · rw [Int.sign_eq_one_of_pos hpos]
    split_ifs <;> omega

theorem toInt_floorDiv {b : Int64} (hb : b ≠ 0) (a : Int64) :
    (floorDiv a b).toInt = Arithmetic.floorDiv a.toInt b.toInt := by
  have hzero : a % b ≠ 0 ↔ a.toInt.tmod b.toInt ≠ 0 := by
    rw [← Int64.toInt_mod, ne_eq, ne_eq, ← Int64.toInt_inj, Int64.toInt_zero]
  unfold floorDiv Arithmetic.floorDiv
  rw [fdiv_eq _ (toInt_ne_zero hb)]
  simp only [hzero, Int64.lt_iff_toInt_lt, Int64.toInt_zero]
  split
  · rw [toInt_sub, toInt_div]
    exact Arithmetic.fit_sub _ 1
  · exact toInt_div a b

theorem toInt_ceilDiv {b : Int64} (hb : b ≠ 0) (a : Int64) :
    (ceilDiv a b).toInt = Arithmetic.ceilDiv a.toInt b.toInt := by
  unfold ceilDiv Arithmetic.ceilDiv
  rw [toInt_neg, toInt_floorDiv hb, toInt_neg]
  rfl

/-- In a sum, an absolute value that wraps does so together with the sum. -/
theorem wrap_add_abs (x b : Int) : wrap (x + Arithmetic.abs b) = wrap (x + b.natAbs) := by
  unfold Arithmetic.abs
  split
  · rw [show (b.natAbs : Int) = -b by omega]
    exact Arithmetic.fit_add_right x (-b)
  · rw [show (b.natAbs : Int) = b by omega]

theorem toInt_residue {b : Int64} (hb : b ≠ 0) (a : Int64) :
    (residue a b).toInt = Arithmetic.residue a.toInt b.toInt := by
  have hlow := b.le_toInt
  have hhigh := b.toInt_lt
  have hmod := Int.tmod_eq_emod (a := a.toInt) (b := b.toInt)
  have hnonneg := Int.emod_nonneg a.toInt (toInt_ne_zero hb)
  have hbelow := Int.emod_lt a.toInt (toInt_ne_zero hb)
  unfold residue Arithmetic.residue
  simp only [Int64.lt_iff_toInt_lt, Int64.toInt_zero, Int64.toInt_mod]
  split
  · have hmoved : a.toInt.tmod b.toInt + b.toInt.natAbs = a.toInt % b.toInt := by
      split at hmod <;> omega
    rw [toInt_add, toInt_abs, Int64.toInt_mod, wrap_add_abs, hmoved]
    exact Arithmetic.wrap_of_mem (by omega) (by omega)
  · rw [Int64.toInt_mod]
    split at hmod <;> omega

theorem toInt_euclid (a b : Int64) : (euclid a b).toInt = Arithmetic.euclid a.toInt b.toInt := by
  fun_induction euclid a b with
  | case1 a =>
    rw [Arithmetic.euclid, if_pos Int64.toInt_zero]
  | case2 a b hb ih =>
    rw [ih, Int64.toInt_mod, Arithmetic.euclid.eq_def a.toInt, if_neg (toInt_ne_zero hb)]

theorem toInt_gcd (a b : Int64) : (gcd a b).toInt = Arithmetic.gcd a.toInt b.toInt := by
  rw [gcd, toInt_euclid, toInt_abs, toInt_abs, Arithmetic.gcd]

end Word

namespace Arithmetic

/-! ### Quotients -/

theorem floor_eq_fdiv (a b : Int) : ⌊(a : ℚ) / b⌋ = a.fdiv b := by
  obtain ⟨d, rfl | rfl⟩ := Int.eq_nat_or_neg b
  · rw [Int.cast_natCast, Rat.floor_intCast_div_natCast, Int.fdiv_eq_ediv_of_nonneg _ (by omega)]
  · have hflip : (a : ℚ) / ((-(d : Int) : Int) : ℚ) = ((-a : Int) : ℚ) / (d : ℚ) := by
      push_cast
      rw [div_neg, neg_div]
    rw [hflip, Rat.floor_intCast_div_natCast, ← Int.neg_fdiv_neg, neg_neg,
      Int.fdiv_eq_ediv_of_nonneg _ (by omega)]

theorem ceil_eq_neg_fdiv (a b : Int) : ⌈(a : ℚ) / b⌉ = -(-a).fdiv b := by
  rw [← floor_eq_fdiv, ← Int.ceil_neg]
  push_cast
  rw [neg_div, neg_neg]

theorem ceilDiv_eq_wrap (a b : Int) : ceilDiv a b = wrap (-(wrap (-a)).fdiv b) := fit_neg _

private theorem quotients_of_least {d : Int} (hlow : 2 ≤ d) (hhigh : d ≤ 2 ^ 63) :
    0 < 2 ^ 63 / d ∧ 2 ^ 63 / d ≤ 2 ^ 62 ∧ -2 ^ 62 ≤ -2 ^ 63 / d ∧ -2 ^ 63 / d < 0 := by
  have hpos : 0 < d := by omega
  refine ⟨?_, ?_, ?_, ?_⟩
  · exact Int.le_ediv_of_mul_le hpos (by omega)
  · exact Int.ediv_le_of_le_mul hpos (by omega)
  · exact Int.le_ediv_of_mul_le hpos (by omega)
  · exact Int.ediv_lt_of_lt_mul hpos (by omega)

/-- The least word takes the other sign when it is divided and rounded up. -/
theorem ceilDiv_least_ne {b : Int} (habs : 2 ≤ b.natAbs) (hword : b.natAbs ≤ 2 ^ 63) :
    ceilDiv (-2 ^ 63) b ≠ -(2 ^ 63 : Int).fdiv b := by
  obtain ⟨hpos, hhigh, hlow, hneg⟩ := quotients_of_least (d := b.natAbs) (by omega) (by omega)
  rw [ceilDiv_eq_wrap, show wrap (-(-2 ^ 63)) = -2 ^ 63 by rfl]
  rcases lt_or_ge b 0 with hb | hb
  · rw [← Int.neg_fdiv_neg, ← Int.neg_fdiv_neg (2 ^ 63), neg_neg, show -b = b.natAbs by omega,
      Int.fdiv_eq_ediv_of_nonneg _ (by omega), Int.fdiv_eq_ediv_of_nonneg _ (by omega),
      wrap_of_mem (by omega) (by omega)]
    omega
  · rw [show b = b.natAbs by omega, Int.fdiv_eq_ediv_of_nonneg _ (by omega),
      Int.fdiv_eq_ediv_of_nonneg _ (by omega), wrap_of_mem (by omega) (by omega)]
    omega

theorem ceilDiv_eq_ceil {a b : Int} (hneg : wrap (-a) = -a)
    (hword : wrap ⌈(a : ℚ) / b⌉ = ⌈(a : ℚ) / b⌉) : ceilDiv a b = ⌈(a : ℚ) / b⌉ := by
  rw [ceilDiv_eq_wrap, hneg, ← ceil_eq_neg_fdiv, hword]

/-- Rounding up is exact but for the least word, which can only be divided by one. -/
theorem ceilDiv_eq_iff {a b : Int} (ha : -2 ^ 63 ≤ a ∧ a < 2 ^ 63) (hb : -2 ^ 63 ≤ b ∧ b < 2 ^ 63)
    (hne : b ≠ 0) (hword : wrap ⌈(a : ℚ) / b⌉ = ⌈(a : ℚ) / b⌉) :
    ceilDiv a b = ⌈(a : ℚ) / b⌉ ↔ a ≠ -2 ^ 63 ∨ b = 1 := by
  by_cases hleast : a = -2 ^ 63
  · subst hleast
    rw [ceil_eq_neg_fdiv, neg_neg] at hword ⊢
    by_cases hone : b = 1
    · subst hone
      exact iff_of_true rfl (.inr rfl)
    · have hminus : b ≠ -1 := by
        rintro rfl
        exact absurd hword (by decide)
      have hwrong := ceilDiv_least_ne (b := b) (by omega) (by omega)
      exact iff_of_false hwrong (by simp [hone])
  · exact iff_of_true (ceilDiv_eq_ceil (wrap_of_mem (by omega) (by omega)) hword) (.inl hleast)

example : ceilDiv? (-2 ^ 63) 2 = .ok (2 ^ 62) := rfl

/-! ### Divisors -/

/-- How often Euclid's algorithm divides. -/
def divisions (a b : Nat) : Nat := if b = 0 then 0 else divisions b (a % b) + 1
termination_by b
decreasing_by exact Nat.mod_lt a (by omega)

theorem natAbs_euclid (a b : Int) : (euclid a b).natAbs = Int.gcd a b := by
  fun_induction euclid a b with
  | case1 a => rw [Int.gcd_zero_right]
  | case2 a b hb ih =>
    rw [ih, Int.gcd, Int.natAbs_tmod, Nat.gcd_comm, ← Nat.gcd_rec, Nat.gcd_comm, Int.gcd]

theorem euclid_neg_neg (a b : Int) : euclid (-a) (-b) = -euclid a b := by
  fun_induction euclid a b with
  | case1 a => rw [neg_zero, euclid, if_pos rfl]
  | case2 a b hb ih => rw [euclid, if_neg (by omega), Int.neg_tmod, Int.tmod_neg, ih]

/-- A negative dividend leaves a negative remainder, so that the signs alternate. -/
theorem euclid_neg (a b : Nat) : euclid (-a) b = (-1) ^ (divisions a b + 1) * Nat.gcd a b := by
  fun_induction divisions a b with
  | case1 a => simp [euclid]
  | case2 a b hb ih =>
    have hmod : (-(a : Int)).tmod b = -((a % b : Nat) : Int) := by
      rw [Int.neg_tmod, Int.ofNat_tmod]
    have hflip := euclid_neg_neg (-b) (a % b : Nat)
    rw [neg_neg] at hflip
    rw [euclid, if_neg (by omega), hmod, hflip, ih, pow_succ _ (_ + 1), mul_neg_one, neg_mul,
      Nat.gcd_comm b, ← Nat.gcd_rec, Nat.gcd_comm]

theorem abs_eq {x : Int} (h : x.natAbs < 2 ^ 63) : abs x = x.natAbs := by
  rw [abs_words h, abs_eq_natAbs]

theorem natAbs_abs {x : Int} (hlow : -2 ^ 63 ≤ x) (hhigh : x < 2 ^ 63) : (abs x).natAbs = x.natAbs := by
  rcases eq_or_lt_of_le hlow with rfl | hlow
  · rfl
  · rw [abs_eq (by omega), Int.natAbs_natCast]

theorem gcd_least_left {b : Int} (hb : b.natAbs < 2 ^ 63) :
    gcd (-2 ^ 63) b = (-1) ^ (divisions (2 ^ 63) b.natAbs + 1) * Int.gcd (-2 ^ 63) b := by
  rw [gcd, abs_eq hb, show abs (-2 ^ 63) = -((2 ^ 63 : Nat) : Int) by rfl, euclid_neg, Int.gcd]
  rfl

/-- A divisor greater than the dividend takes its place. -/
theorem gcd_least_right {a : Int} (ha : a.natAbs < 2 ^ 63) : gcd a (-2 ^ 63) = gcd (-2 ^ 63) a := by
  rw [gcd, gcd, abs_eq ha, show abs (-2 ^ 63) = -((2 ^ 63 : Nat) : Int) by rfl, euclid, if_neg (by omega),
    Int.tmod_neg, Int.tmod_eq_of_lt (by omega) (by omega)]

theorem alternates_eq_iff {g k : Nat} (hg : 0 < g) : (-1 : Int) ^ (k + 1) * g = g ↔ Odd k := by
  rcases Nat.even_or_odd k with hk | hk
  · rw [hk.add_one.neg_one_pow, neg_one_mul]
    have hnot := Nat.not_odd_iff_even.mpr hk
    constructor
    · omega
    · exact fun h => absurd h hnot
  · rw [hk.add_one.neg_one_pow, one_mul]
    exact iff_of_true rfl hk

theorem natAbs_gcd {a b : Int} (ha : -2 ^ 63 ≤ a ∧ a < 2 ^ 63) (hb : -2 ^ 63 ≤ b ∧ b < 2 ^ 63) :
    (gcd a b).natAbs = Int.gcd a b := by
  rw [gcd, natAbs_euclid, Int.gcd, natAbs_abs ha.1 ha.2, natAbs_abs hb.1 hb.2, Int.gcd]

/-- A divisor comes out with the right sign unless the least word takes part, and then only after an odd
number of divisions. -/
theorem gcd_eq_iff {a b : Int} (ha : -2 ^ 63 ≤ a ∧ a < 2 ^ 63) (hb : -2 ^ 63 ≤ b ∧ b < 2 ^ 63)
    (hword : Int.gcd a b < 2 ^ 63) :
    gcd a b = Int.gcd a b ↔
      (a ≠ -2 ^ 63 ∧ b ≠ -2 ^ 63) ∨ Odd (divisions (2 ^ 63) (min a.natAbs b.natAbs)) := by
  by_cases hleft : a = -2 ^ 63 <;> by_cases hright : b = -2 ^ 63
  · subst hleft hright
    exact absurd hword (by decide)
  · subst hleft
    have hpos : 0 < Int.gcd (-2 ^ 63) b := Int.gcd_pos_of_ne_zero_left b (by decide)
    rw [gcd_least_left (by omega), alternates_eq_iff hpos,
      show min (-2 ^ 63 : Int).natAbs b.natAbs = b.natAbs by omega]
    simp
  · subst hright
    have hpos : 0 < Int.gcd (-2 ^ 63) a := Int.gcd_pos_of_ne_zero_left a (by decide)
    rw [gcd_least_right (by omega), Int.gcd_comm, gcd_least_left (by omega), alternates_eq_iff hpos,
      show min a.natAbs (-2 ^ 63 : Int).natAbs = a.natAbs by omega]
    simp
  · rw [gcd, abs_eq (by omega), abs_eq (by omega), euclid_eq_gcd _ _ (by omega) (by omega)]
    exact iff_of_true rfl (.inl ⟨hleft, hright⟩)

/-! ### Words -/

theorem residue_unique {b : Int} (hb : b ≠ 0) (a r : Int) :
    (0 ≤ r ∧ r < |b| ∧ r ≡ a [ZMOD b]) ↔ r = residue a b := by
  constructor
  · rintro ⟨hlow, hhigh, hmod⟩
    rw [residue, ← hmod.eq, ← Int.emod_abs, Int.emod_eq_of_lt hlow hhigh]
  · rintro rfl
    exact ⟨Int.emod_nonneg a hb, Int.emod_lt_abs a hb, Int.mod_modEq a b⟩

theorem wrap_of_word {x : Int} {q : Int64} (h : q.toInt = x) : wrap x = x := h ▸ Word.wrap_toInt q

/-- Quotients are rounded down, and remainders are the ones that are not negative, for all words. Rounded up
they are the exact ones unless the least word is divided, and divisors are the greatest unless the least word
takes part and the number of divisions is even. -/
theorem division_words (a b : Int64) :
    (b ≠ 0 →
      (∀ q : Int64, q.toInt = ⌊(a.toInt : ℚ) / b.toInt⌋ → floorDiv? a.toInt b.toInt = .ok q.toInt) ∧
      (∀ q : Int64, q.toInt = ⌈(a.toInt : ℚ) / b.toInt⌉ →
        (ceilDiv? a.toInt b.toInt = .ok q.toInt ↔ a ≠ Int64.minValue ∨ b = 1)) ∧
      (∃ r : Int64, residue? a.toInt b.toInt = .ok r.toInt ∧
        ∀ s : Int, (0 ≤ s ∧ s < |b.toInt| ∧ s ≡ a.toInt [ZMOD b.toInt]) ↔ s = r.toInt) ∧
      (Word.floorDiv a b).toInt = floorDiv a.toInt b.toInt ∧
      (Word.ceilDiv a b).toInt = ceilDiv a.toInt b.toInt ∧
      (Word.residue a b).toInt = residue a.toInt b.toInt) ∧
    (gcd a.toInt b.toInt).natAbs = Int.gcd a.toInt b.toInt ∧
    (∀ g : Int64, g.toInt = Int.gcd a.toInt b.toInt →
      (gcd a.toInt b.toInt = g.toInt ↔ (a ≠ Int64.minValue ∧ b ≠ Int64.minValue) ∨
        Odd (divisions (2 ^ 63) (min a.toInt.natAbs b.toInt.natAbs)))) ∧
    (Word.gcd a b).toInt = gcd a.toInt b.toInt := by
  have hleast : ∀ x : Int64, x = Int64.minValue ↔ x.toInt = -2 ^ 63 := fun x => by
    rw [← Int64.toInt_inj, Int64.toInt_minValue]
  have ha := And.intro a.le_toInt a.toInt_lt
  have hb := And.intro b.le_toInt b.toInt_lt
  refine ⟨fun hzero => ?_, natAbs_gcd ha hb, fun g hg => ?_, Word.toInt_gcd a b⟩
  · have hne := Word.toInt_ne_zero hzero
    refine ⟨fun q hq => ?_, fun q hq => ?_, ⟨Word.residue a b, ?_, ?_⟩, Word.toInt_floorDiv hzero a,
      Word.toInt_ceilDiv hzero a, Word.toInt_residue hzero a⟩
    · rw [floorDiv?_eq hne, floorDiv, fit_word64, ← floor_eq_fdiv, wrap_of_word hq, hq]
    · have hone : b = 1 ↔ b.toInt = 1 := by rw [← Int64.toInt_inj, Int64.toInt_one]
      rw [ceilDiv?_eq hne, Except.ok.injEq, hq, ceilDiv_eq_iff ha hb hne (wrap_of_word hq), ne_eq, ← hleast,
        ← hone]
    · rw [residue?_eq hne, Word.toInt_residue hzero]
    · intro s
      rw [residue_unique hne, Word.toInt_residue hzero]
  · have hword := g.toInt_lt
    rw [hg, gcd_eq_iff ha hb (by omega)]
    simp only [ne_eq, hleast]

theorem division_words_least :
    floorDiv? (-2 ^ 63) 6 = .ok (-1537228672809129302) ∧ ceilDiv? (-2 ^ 63) 6 ≠ .ok (-1537228672809129301) ∧
      gcd (-2 ^ 63) 6 ≠ 2 := by
  obtain ⟨hquotients, -, hdivisor, -⟩ := division_words Int64.minValue 6
  obtain ⟨hfloor, hceil, -⟩ := hquotients (by decide)
  refine ⟨?_, ?_, ?_⟩
  · exact hfloor (-1537228672809129302) (by rw [floor_eq_fdiv]; rfl)
  · exact (hceil (-1537228672809129301) (by rw [ceil_eq_neg_fdiv]; rfl)).not.mpr (by decide)
  · have hcount : divisions (2 ^ 63) 6 = 2 := by simp [divisions]
    refine (hdivisor 2 rfl).not.mpr ?_
    rintro (⟨hleast, -⟩ | hodd)
    · exact hleast rfl
    · rw [show min _ _ = 6 by rfl, hcount] at hodd
      exact absurd hodd (by decide)

end Arithmetic

end StreamLoom
