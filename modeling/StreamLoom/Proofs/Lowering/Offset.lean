import Mathlib.Tactic.Ring
import StreamLoom.Proofs.Lowering.Machine
import StreamLoom.Proofs.Storage.Layout

/-!
# Offsets

A machine finds the offset of an element from an index of the first period and from the phase of the
buffer. The phase has been turned once for each period, so that it stands for the indices that the array
has advanced by, up to the number of slots. The offset is therefore that of the index under a phase which
was never reduced.
-/

namespace StreamLoom.Lowering

attribute [local instance] Arithmetic.exact

variable {V α β : Type}

/-- A part of a run ends with a value and leaves the machine as it is. -/
def Gives (part : Running V α) (σ : Machine V) (a : α) : Prop := part.from σ = (.ok a, σ)

namespace Gives

variable {σ : Machine V}

protected theorem pure (a : α) : Gives (pure a) σ a := rfl

theorem eq_pure {part : Running V α} {a : α} (h : ∀ σ, Gives part σ a) : part = pure a := funext h

protected theorem bind {part : Running V α} {f : α → Running V β} {a : α} {b : β} (h : Gives part σ a)
    (hf : Gives (f a) σ b) : Gives (part >>= f) σ b := by
  rw [Gives, Running.from_bind h]
  exact hf

end Gives

section

variable {I : Interpretation V} {σ : Machine V} {model : Model}

/-! ### Sums -/

theorem dot_comm (xs ys : List Int) : Arithmetic.dot xs ys = Arithmetic.dot ys xs := by
  induction xs generalizing ys with
  | nil => cases ys <;> rfl
  | cons x xs ih =>
    cases ys with
    | nil => rfl
    | cons y ys => rw [Arithmetic.dot, Arithmetic.dot, ih, mul_comm]

theorem dot_modify {xs : List Int} {d : Nat} (hd : d < xs.length) (t : Int) (ks : List Int) :
    Arithmetic.dot (xs.modify d (· + t)) ks = Arithmetic.dot xs ks + t * ks.getD d 0 := by
  induction xs generalizing d ks with
  | nil => simp at hd
  | cons x xs ih =>
    cases ks with
    | nil => cases d <;> simp [Arithmetic.dot]
    | cons k ks =>
      cases d with
      | zero =>
        simp only [List.modify_zero_cons, Arithmetic.dot, List.getD_cons_zero]
        ring
      | succ d =>
        rw [List.modify_succ_cons, Arithmetic.dot, Arithmetic.dot, ih (by simpa using hd),
          List.getD_cons_succ]
        ring

theorem modify_append {xs : List Int} {d : Nat} (hd : d < xs.length) (f : Int → Int)
    (ys : List Int) : xs.modify d f ++ ys = (xs ++ ys).modify d f := by
  induction xs generalizing d with
  | nil => simp at hd
  | cons x xs ih =>
    cases d with
    | zero => rfl
    | succ d =>
      rw [List.modify_succ_cons, List.cons_append, List.cons_append, List.modify_succ_cons,
        ih (by simpa using hd)]

/-- An index changes in proportion to the point at which it is evaluated. -/
theorem dot_map_eval_modify (pattern : List Affine) {x : List Int} {d : Nat} (hd : d < x.length)
    (t : Int) (r ks : List Int) :
    Arithmetic.dot (pattern.map (·.eval (x.modify d (· + t) ++ r))) ks =
      Arithmetic.dot (pattern.map (·.eval (x ++ r))) ks +
        t * Arithmetic.dot (pattern.map (·.coeff d)) ks := by
  have hlength : d < (x ++ r).length := by
    rw [List.length_append]
    omega
  induction pattern generalizing ks with
  | nil => simp [Arithmetic.dot]
  | cons a pattern ih =>
    cases ks with
    | nil => simp [Arithmetic.dot]
    | cons k ks =>
      have heval : a.eval (x.modify d (· + t) ++ r) = a.eval (x ++ r) + t * a.coeff d := by
        rw [modify_append hd, Affine.eval, Affine.eval, Arithmetic.fit_exact, Arithmetic.fit_exact,
          dot_comm, dot_modify hlength, dot_comm, Affine.coeff]
        ring
      simp only [List.map_cons, Arithmetic.dot]
      rw [ih, heval]
      ring

/-- A sum without terms stands for zero. -/
private def Sums (I : Interpretation V) (sum : Option V) (x : Int) : Prop :=
  sum.elim (x = 0) (· = I.ofInt x)

private theorem gives_added {sum : Option V} {a : Int} (h : Sums I sum a) (b : Int) :
    ∃ sum', Gives (match sum with
      | none => pure (some (I.ofInt b))
      | some s => do return some (← I.target.indexAdd s (I.ofInt b))) σ sum' ∧ Sums I sum' (a + b) := by
  cases sum with
  | none =>
    obtain rfl : a = 0 := h
    refine ⟨some (I.ofInt b), .pure _, ?_⟩
    rw [Sums, Option.elim_some, zero_add]
  | some s =>
    obtain rfl : s = I.ofInt a := h
    refine ⟨some (I.ofInt (a + b)), ?_, rfl⟩
    refine .bind (a := I.ofInt (a + b)) ?_ (.pure _)
    change Gives (pure (I.ofInt (I.toInt (I.ofInt a) + I.toInt (I.ofInt b)))) σ _
    rw [I.toInt_ofInt, I.toInt_ofInt]
    exact .pure _

private theorem gives_addTerm {sum : Option V} {a : Int} (h : Sums I sum a) (x c : Int) :
    ∃ sum', Gives (addTerm I.target sum (I.ofInt x) c) σ sum' ∧ Sums I sum' (a + x * c) := by
  unfold addTerm
  by_cases hzero : c = 0
  · rw [if_pos hzero]
    refine ⟨sum, .pure _, ?_⟩
    rwa [hzero, mul_zero, add_zero]
  rw [if_neg hzero]
  by_cases hone : c = 1
  · obtain ⟨sum', hgives, hsums⟩ := gives_added (σ := σ) h x
    rw [if_pos hone]
    refine ⟨sum', .bind (.pure _) hgives, ?_⟩
    rwa [hone, mul_one]
  · obtain ⟨sum', hgives, hsums⟩ := gives_added (σ := σ) h (x * c)
    rw [if_neg hone]
    refine ⟨sum', .bind (.pure _) (.bind (a := I.ofInt (x * c)) ?_ hgives), hsums⟩
    change Gives (pure (I.ofInt (I.toInt (I.ofInt x) * I.toInt (I.ofInt c)))) σ _
    rw [I.toInt_ofInt, I.toInt_ofInt]
    exact .pure _

private theorem gives_sum {sum : Option V} {a : Int} (h : Sums I sum a) (xs ks : List Int) :
    ∃ sum', Gives (((xs.map I.ofInt).zip ks).foldlM (fun sum (v, k) => addTerm I.target sum v k) sum) σ
      sum' ∧ Sums I sum' (a + Arithmetic.dot xs ks) := by
  induction xs generalizing ks sum a with
  | nil =>
    refine ⟨sum, .pure _, ?_⟩
    rwa [Arithmetic.dot, add_zero]
    simp
  | cons x xs ih =>
    cases ks with
    | nil =>
      refine ⟨sum, .pure _, ?_⟩
      rwa [Arithmetic.dot, add_zero]
      simp
    | cons k ks =>
      obtain ⟨sum₁, hgives, hsums⟩ := gives_addTerm (σ := σ) h x k
      obtain ⟨sum', hgives', hsums'⟩ := ih hsums ks
      refine ⟨sum', ?_, ?_⟩
      · rw [List.map_cons, List.zip_cons_cons, List.foldlM_cons]
        exact .bind hgives hgives'
      · rwa [Arithmetic.dot, ← add_assoc]

theorem gives_affine (c : Int) (xs ks : List Int) :
    Gives (affine I.target c (xs.map I.ofInt) ks) σ (I.ofInt (c + Arithmetic.dot xs ks)) := by
  have hnone : Sums I none 0 := rfl
  obtain ⟨sum, hgives, hsums⟩ := gives_sum (σ := σ) hnone xs ks
  rw [zero_add] at hsums
  refine .bind hgives ?_
  cases sum with
  | none =>
    rw [show Arithmetic.dot xs ks = 0 from hsums, add_zero]
    exact .pure _
  | some s =>
    obtain rfl : s = I.ofInt (Arithmetic.dot xs ks) := hsums
    dsimp only
    split
    · rename_i hzero
      rw [hzero, zero_add]
      exact .pure _
    · refine .bind (.pure _) ?_
      change Gives (pure (I.ofInt (I.toInt (I.ofInt _) + I.toInt (I.ofInt c)))) σ _
      rw [I.toInt_ofInt, I.toInt_ofInt, add_comm]
      exact .pure _

theorem gives_mapped (env : List Int) (pattern : List Affine) :
    Gives (mapped I.target (env.map I.ofInt) pattern) σ ((pattern.map (·.eval env)).map I.ofInt) := by
  unfold mapped
  induction pattern with
  | nil => exact .pure _
  | cons a pattern ih =>
    rw [List.mapM_cons]
    refine .bind (gives_affine a.const env a.coeffs) (.bind ih ?_)
    rw [List.map_cons, List.map_cons, Affine.eval, Arithmetic.fit_exact, dot_comm]
    exact .pure _

/-! ### Buffers -/

theorem gives_arrayAt {number : Nat} {array : DataArray} (h : model.arrays[number]? = some array) :
    Gives (arrayAt model number : Running V DataArray) σ array := by
  rw [arrayAt, h]
  exact .pure _

end

/-- The buffer of an array consists of whole slices, and of one slot where the array has no
dimensions. -/
structure Laid (array : DataArray) : Prop where
  period : 0 ≤ array.buffer.period
  length : (layoutOf array).length = (layoutOf array).slots * (layoutOf array).slice
  scalar : array.rank = 0 → (layoutOf array).length = 1

/-- A phase has been turned by some number of indices. -/
def Turned (array : DataArray) (phase count : Int) : Prop := (layoutOf array).slots ∣ phase - count

theorem Turned.advance {array : DataArray} {phase count : Int} (h : Turned array phase count)
    (period : Int) : Turned array ((layoutOf array).advance phase period) (count + period) := by
  obtain ⟨n, hn⟩ := h
  rw [Turned, Layout.advance, Arithmetic.residue, Arithmetic.fit_exact, Int.emod_def]
  refine ⟨n - (phase + period) / (layoutOf array).slots, ?_⟩
  rw [mul_sub, ← hn]
  ring

/-- Two offsets agree just when they do so before they are reduced to the buffer. -/
theorem flatten_eq_iff_dvd (l : Layout) (index index' : List Int) (phase phase' : Int) :
    l.flatten index phase = l.flatten index' phase' ↔
      l.length ∣ phase * l.slice + Arithmetic.dot index l.strides -
        (phase' * l.slice + Arithmetic.dot index' l.strides) := by
  rw [Layout.flatten, Layout.flatten, Arithmetic.residue, Arithmetic.residue, Arithmetic.fit_exact,
    Arithmetic.fit_exact, Int.emod_eq_emod_iff_emod_sub_eq_zero, ← Int.dvd_iff_emod_eq_zero]

/-- Whole turns of a buffer do not change an offset. -/
theorem flatten_of_turned {array : DataArray} (hlaid : Laid array) {phase count : Int}
    (h : Turned array phase count) (index : List Int) :
    (layoutOf array).flatten index phase = (layoutOf array).flatten index count := by
  obtain ⟨n, hn⟩ := h
  have hphase : phase = count + (layoutOf array).slots * n := by omega
  rw [flatten_eq_iff_dvd, hlaid.length, hphase]
  exact ⟨n, by ring⟩

section

variable {I : Interpretation V} {σ : Machine V} {model : Model} {number : Nat} {array : DataArray}

/-- The offset of an element under the phase that a machine has, if the buffer of its array is turned. -/
theorem gives_flatten (harray : model.arrays[number]? = some array) {index : List Int} (hne : index ≠ []) :
    Gives (bufferOffset model I.target number (index.map I.ofInt)) σ
      (I.ofInt ((layoutOf array).flatten index
        (if array.buffer.period > 0 then σ.phases number else 0))) := by
  unfold bufferOffset
  rw [if_neg (by simpa using hne)]
  refine .bind (gives_arrayAt harray) (.bind (gives_affine 0 index _) ?_)
  rw [zero_add]
  by_cases hperiod : array.buffer.period > 0
  · rw [if_pos hperiod, if_pos hperiod]
    refine .bind (a := I.ofInt (σ.phases number)) rfl ?_
    have hfinish : Gives (do
        I.target.indexMod (← I.target.indexAdd (I.ofInt (Arithmetic.dot index (layoutOf array).strides))
          (I.ofInt (σ.phases number * (layoutOf array).slice))) (layoutOf array).length) σ
        (I.ofInt ((layoutOf array).flatten index (σ.phases number))) := by
      change Gives (pure (I.ofInt (Arithmetic.residue (I.toInt (I.ofInt (I.toInt (I.ofInt _) +
        I.toInt (I.ofInt _)))) (layoutOf array).length))) σ _
      rw [I.toInt_ofInt, I.toInt_ofInt, I.toInt_ofInt, Layout.flatten, Arithmetic.fit_exact, add_comm]
      exact .pure _
    by_cases hslice : (layoutOf array).slice = 1
    · rw [if_pos hslice]
      rw [hslice, mul_one] at hfinish
      exact .bind (.pure _) hfinish
    · rw [if_neg hslice]
      refine .bind (.pure _) (.bind (a := I.ofInt (σ.phases number * (layoutOf array).slice)) ?_ hfinish)
      change Gives (pure (I.ofInt (I.toInt (I.ofInt _) * I.toInt (I.ofInt _)))) σ _
      rw [I.toInt_ofInt, I.toInt_ofInt]
      exact .pure _
  · rw [if_neg hperiod, if_neg hperiod, Layout.flatten, zero_mul, zero_add]
    change Gives (pure (I.ofInt (Arithmetic.residue (I.toInt (I.ofInt _)) _))) σ _
    rw [I.toInt_ofInt]
    exact .pure _

/-- The offset of an element is that under a phase which was never reduced. A buffer without a period is not
turned at all. -/
theorem gives_bufferOffset (harray : model.arrays[number]? = some array) (hlaid : Laid array) {count : Int}
    (hturned : Turned array (σ.phases number) count) (hstill : array.buffer.period = 0 → count = 0)
    {index : List Int} (hlength : index.length = array.rank) :
    Gives (bufferOffset model I.target number (index.map I.ofInt)) σ
      (I.ofInt ((layoutOf array).flatten index count)) := by
  by_cases hempty : index = []
  · have hone : (layoutOf array).length = 1 := hlaid.scalar (by rw [← hlength, hempty]; rfl)
    rw [bufferOffset, if_pos (by simp [hempty]), Layout.flatten, hone, Arithmetic.residue, Int.emod_one]
    exact .pure _
  have hgives := gives_flatten (I := I) (σ := σ) harray hempty
  by_cases hperiod : array.buffer.period > 0
  · rwa [if_pos hperiod, flatten_of_turned hlaid hturned] at hgives
  · have hzero : array.buffer.period = 0 := by
      have hnonneg := hlaid.period
      omega
    rw [if_neg hperiod] at hgives
    rwa [hstill hzero]

/-- Whatever the phases of a machine are, the offset of an element is one of its buffer. -/
theorem exists_slot (harray : model.arrays[number]? = some array)
    (hpos : 0 < (layoutOf array).length) (index : List Int) :
    ∃ slot, 0 ≤ slot ∧ slot < (layoutOf array).length ∧
      Gives (bufferOffset model I.target number (index.map I.ofInt)) σ (I.ofInt slot) := by
  by_cases hempty : index = []
  · refine ⟨0, le_rfl, hpos, ?_⟩
    rw [bufferOffset, if_pos (by simp [hempty])]
    exact .pure _
  · exact ⟨_, Int.emod_nonneg _ hpos.ne', Int.emod_lt_of_pos _ hpos, gives_flatten harray hempty⟩

/-- What a read finds is in the slot of its index. -/
theorem gives_read (harray : model.arrays[number]? = some array) (hlaid : Laid array)
    (hturned : Turned array (σ.phases number) (σ.period * array.buffer.period)) {access : Access}
    (hlength : access.pattern.length = array.rank) (type : ValueType) (st : Statement) (env : List Int)
    (steady : Bool) :
    Gives (value model I.target ⟨st, env.map I.ofInt, steady⟩ (.read number type access)) σ
      (σ.buffers number ((layoutOf array).flatten (access.pattern.map (·.eval env))
        (σ.period * array.buffer.period))) := by
  rw [value]
  refine .bind (gives_mapped env access.pattern) ?_
  refine .bind (gives_bufferOffset harray hlaid hturned (fun hzero => by rw [hzero, mul_zero])
    (by rw [List.length_map, hlength])) ?_
  change Gives (do return (← get).buffers number (I.toInt (I.ofInt _))) σ _
  rw [I.toInt_ofInt]
  rfl

end

end StreamLoom.Lowering
