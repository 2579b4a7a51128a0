import StreamLoom.Proofs.Affine.Difference

/-!
# Systems of differences on words

A system of differences stays one while its variables are eliminated, and each elimination at most doubles
its constants. When the constants are small for the number of variables, words therefore lead to the same
systems as unbounded integers do, and the search for integer solutions has the same result.
-/

namespace StreamLoom

attribute [local instance] Arithmetic.exact

namespace System

/-- Rows over `n` variables that are differences with bounded constants. -/
def Differences (n bound : Nat) (rows : List Constraint) : Prop := ∀ r ∈ rows, r.form.Difference n bound

theorem Differences.mono {n bound bound' : Nat} {rows : List Constraint} (h : Differences n bound rows)
    (hle : bound ≤ bound') : Differences n bound' rows := fun r hr => (h r hr).mono hle

/-- Words lead to the same system as unbounded integers, and its rows are differences. -/
structure Alike (n bound : Nat) (words exact : Option System) : Prop where
  eq : words = exact
  differences : ∀ rows, exact = some rows → Differences n bound rows

namespace Alike

variable {n bound : Nat}

theorem some {rows : System} (h : Differences n bound rows) : Alike n bound (some rows) (some rows) :=
  ⟨rfl, fun _ hrows => Option.some.inj hrows ▸ h⟩

theorem none : Alike n bound none none := ⟨rfl, by simp⟩

theorem bind {bound' : Nat} {words exact : Option System} {f g : System → Option System}
    (h : Alike n bound words exact)
    (hstep : ∀ rows, Differences n bound rows → Alike n bound' (f rows) (g rows)) :
    Alike n bound' (words.bind f) (exact.bind g) := by
  obtain ⟨rfl, hrows⟩ := h
  cases words with
  | none => exact .none
  | some rows => exact hstep rows (hrows rows rfl)

theorem foldlM {f g : System → Constraint → Option System} {rs : List Constraint} {rows : System}
    (hrows : Differences n bound rows) (hstep : ∀ rows, Differences n bound rows → ∀ r ∈ rs,
      Alike n bound (f rows r) (g rows r)) : Alike n bound (rs.foldlM f rows) (rs.foldlM g rows) := by
  induction rs generalizing rows with
  | nil => exact .some hrows
  | cons r rest ih =>
    rw [List.foldlM_cons, List.foldlM_cons]
    exact (hstep rows hrows r (by simp)).bind fun rows' hrows' =>
      ih hrows' fun rows hrows r hr => hstep rows hrows r (by simp [hr])

end Alike

variable {n bound : Nat} {rows : System}

/-! ### Lowest terms -/

theorem properRows_alike {cs : List Constraint} (hcs : Differences n bound cs) (hbound : bound < 2 ^ 62) :
    Alike n bound (@properRows .word64 cs) (properRows cs) := by
  induction cs with
  | nil => exact .some (by simp [Differences])
  | cons c rest ih =>
    have hrest := ih fun c hc => hcs c (by simp [hc])
    have hc := hcs c (by simp)
    unfold properRows
    rw [Constraint.reduce_words hc hbound]
    split
    · exact .none
    · exact hrest
    · rename_i r hr
      rw [Option.map_eq_bind, Option.map_eq_bind]
      refine hrest.bind fun rows hrows => .some fun r' hr' => ?_
      rcases List.mem_cons.mp hr' with rfl | hr'
      · exact Constraint.difference_of_reduce hc hr
      · exact hrows r' hr'

theorem insert_alike {r : Constraint} (hr : r.form.Difference n bound) (hrows : Differences n bound rows) :
    Alike n bound (insert r rows) (insert r rows) := by
  refine ⟨rfl, fun rows' h r' hr' => ?_⟩
  rcases List.mem_cons.mp (mem_of_mem_insert h hr') with rfl | hr'
  · exact hr
  · exact hrows r' hr'

theorem close_alike {direction : List Int} (hdirection : ∀ x ∈ direction, x.natAbs ≤ 1)
    (hrows : Differences n bound rows) (hbound : bound < 2 ^ 62) :
    Alike n bound (@close .word64 rows direction) (close rows direction) := by
  have hopposite : (direction.map fun x => Arithmetic.wrap (-x)) = direction.map fun x => -x := by
    refine List.map_congr_left fun x hx => Arithmetic.wrap_of_natAbs_lt ?_
    have hunit := hdirection x hx
    omega
  simp only [close, Arithmetic.fit_word64, Arithmetic.fit_exact, hopposite]
  split
  · rename_i c d hc hd
    have hcform := hrows c (mem_of_bounding? hc).1
    have hdform := hrows d (mem_of_bounding? hd).1
    have hcconst : c.const.natAbs ≤ bound := hcform.const
    have hdconst : d.const.natAbs ≤ bound := hdform.const
    rw [Arithmetic.wrap_of_natAbs_lt (x := c.const + d.const) (by omega),
      Constraint.reduce_words (c := .zero c.form) hcform hbound]
    split
    · exact .none
    split
    · refine insert_alike ?_ fun r hr => hrows r (List.mem_filter.mp hr).1
      split
      · rename_i r hr
        exact Constraint.difference_of_reduce (c := .zero c.form) hcform hr
      · exact hcform
    · exact .some hrows
  · exact .some hrows

theorem ofConstraints_alike {cs : List Constraint} (hcs : Differences n bound cs)
    (hbound : bound < 2 ^ 62) : Alike n bound (@ofConstraints .word64 cs) (ofConstraints cs) := by
  refine (properRows_alike hcs hbound).bind fun proper hproper => ?_
  have hinserted : Alike n bound (proper.foldlM (fun rows row => insert row rows) [])
      (proper.foldlM (fun rows row => insert row rows) []) :=
    .foldlM (by simp [Differences]) fun rows hrows r hr => insert_alike (hproper r hr) hrows
  refine hinserted.bind fun rows hrows => .foldlM hrows fun rows' hrows' r hr => ?_
  exact close_alike (fun x hx => (hrows r (List.mem_filter.mp hr).1).unit_of_mem hx) hrows' hbound

/-! ### Elimination -/

theorem pivot?_words (hrows : Differences n bound rows) (v : Nat) :
    @pivot? .word64 rows v = rows.pivot? v := by
  have hfold : ∀ best : Option Constraint, (∀ b, best = some b → (b.coeff v).natAbs ≤ 1) →
      rows.foldl (@betterPivot .word64 v) best = rows.foldl (betterPivot v) best := by
    induction rows with
    | nil => exact fun _ _ => rfl
    | cons r rest ih =>
      intro best hbest
      have hr := (hrows r (by simp)).unit v
      have hsame : @betterPivot .word64 v best r = betterPivot v best r := by
        unfold betterPivot
        cases best with
        | none => rfl
        | some b =>
          have hb := hbest b rfl
          simp only [Arithmetic.abs_words (x := r.coeff v) (hr.trans_lt (by simp)),
            Arithmetic.abs_words (x := b.coeff v) (hb.trans_lt (by simp))]
      rw [List.foldl_cons, List.foldl_cons, hsame]
      refine ih (fun r hr => hrows r (by simp [hr])) _ fun b hb => ?_
      unfold betterPivot at hb
      split at hb
      · exact hbest b hb
      · split at hb
        · exact Option.some.inj hb ▸ hr
        · split at hb
          · exact Option.some.inj hb ▸ hr
          · exact Option.some.inj hb ▸ hbest _ rfl
  exact hfold none (by simp)

theorem substitute_words {eq : Constraint} {v : Nat} (hrows : Differences n bound rows)
    (heq : eq.form.Difference n bound) (hne : eq.coeff v ≠ 0) (hbound : bound < 2 ^ 62) :
    @substitute .word64 rows eq v = rows.substitute eq v ∧
      Differences n (2 * bound) (rows.substitute eq v) := by
  have hpivot : (pivotForm eq v).Difference n bound := by
    rcases pivotForm_eq eq v with h | h
    · rwa [h]
    · rw [h]
      exact heq.neg
  have hone : (pivotForm eq v).coeff v = 1 := by
    have hunit : (eq.coeff v).natAbs ≤ 1 := heq.unit v
    rw [coeff_pivotForm]
    omega
  have hform : (if eq.coeff v < 0 then @Affine.neg .word64 eq.form else eq.form) = pivotForm eq v := by
    rw [heq.neg_words hbound]
    rfl
  have hunit (r : Constraint) (hr : r ∈ rows) : (r.coeff v).natAbs ≤ 1 := (hrows r hr).unit v
  have hscaled (r : Constraint) (hr : r ∈ rows) (hv : r.coeff v ≠ 0) :
      ((pivotForm eq v).scale (r.coeff v)).Difference n bound :=
    hpivot.scale_unit (by have := hunit r hr; omega)
  constructor
  · simp only [substitute, hform, hone]
    change _ = (rows.erase eq).map fun r => if r.coeff v = 0 then r else { r with
      form := (r.form.scale ((pivotForm eq v).coeff v)).sub ((pivotForm eq v).scale (r.coeff v)) }
    refine List.map_congr_left fun r hr => ?_
    have hr := List.mem_of_mem_erase hr
    split
    · rfl
    · rename_i hv
      rw [hone, (hrows r hr).scale_words hbound (by simp), hpivot.scale_words hbound (hunit r hr),
        Affine.Difference.scale_one, (hrows r hr).sub_words (hscaled r hr hv) hbound]
  · intro r' hr'
    change r' ∈ (rows.erase eq).map fun r => if r.coeff v = 0 then r else { r with
      form := (r.form.scale ((pivotForm eq v).coeff v)).sub ((pivotForm eq v).scale (r.coeff v)) } at hr'
    obtain ⟨r, hr, rfl⟩ := List.mem_map.mp hr'
    have hr := List.mem_of_mem_erase hr
    split
    · exact (hrows r hr).mono (by omega)
    · rename_i hv
      simp only [hone, Affine.Difference.scale_one]
      refine (hrows r hr).sub_cancel (hscaled r hr hv) ?_ hv
      rw [Affine.coeff_scale, hone, one_mul]
      rfl

theorem shadow_words {v : Nat} (hrows : Differences n bound rows) (hbound : bound < 2 ^ 62) :
    @shadow .word64 rows v = rows.shadow v ∧ Differences n (2 * bound) (rows.shadow v) := by
  have hlower {p : Constraint} (hp : p ∈ rows.filter (·.coeff v > 0)) :
      p.form.Difference n bound ∧ p.coeff v = 1 := by
    obtain ⟨hmem, hpos⟩ := List.mem_filter.mp hp
    have hunit : (p.coeff v).natAbs ≤ 1 := (hrows p hmem).unit v
    have hpos : 0 < p.coeff v := by simpa using hpos
    exact ⟨hrows p hmem, by omega⟩
  have hupper {q : Constraint} (hq : q ∈ rows.filter (·.coeff v < 0)) :
      q.form.Difference n bound ∧ q.coeff v = -1 := by
    obtain ⟨hmem, hneg⟩ := List.mem_filter.mp hq
    have hunit : (q.coeff v).natAbs ≤ 1 := (hrows q hmem).unit v
    have hneg : q.coeff v < 0 := by simpa using hneg
    exact ⟨hrows q hmem, by omega⟩
  constructor
  · simp only [shadow]
    congr 1
    rw [List.flatMap_def, List.flatMap_def]
    refine congrArg List.flatten (List.map_congr_left fun p hp => List.map_congr_left fun q hq => ?_)
    obtain ⟨hpform, hpone⟩ := hlower hp
    obtain ⟨hqform, hqone⟩ := hupper hq
    have hwrap : Arithmetic.wrap 1 = 1 := by decide
    simp only [hpone, hqone, Arithmetic.fit_word64, Arithmetic.fit_exact, neg_neg, hwrap]
    rw [hpform.scale_words hbound (by simp), hqform.scale_words hbound (by simp),
      Affine.Difference.scale_one, Affine.Difference.scale_one, hpform.add_words hqform hbound]
  · intro r hr
    rcases List.mem_append.mp hr with hr | hr
    · exact (hrows r (List.mem_filter.mp hr).1).mono (by omega)
    · obtain ⟨p, hp, hr⟩ := List.mem_flatMap.mp hr
      obtain ⟨q, hq, rfl⟩ := List.mem_map.mp hr
      obtain ⟨hpform, hpone⟩ := hlower hp
      obtain ⟨hqform, hqone⟩ := hupper hq
      simp only [hpone, hqone, Arithmetic.fit_exact, neg_neg, Affine.Difference.scale_one]
      exact hpform.add_cancel hqform hpone hqone

/-- Eliminating a variable at most doubles the constants. -/
theorem eliminate_alike {v : Nat} (hrows : Differences n bound rows) (hbound : 2 * bound < 2 ^ 62) :
    Alike n (2 * bound) (@eliminate .word64 rows v) (rows.eliminate v) := by
  unfold eliminate
  rw [pivot?_words hrows]
  split
  · rename_i eq heq
    obtain ⟨hmem, -, hne, -⟩ := pivot?_eq_some heq
    obtain ⟨hsame, hdifferences⟩ := substitute_words hrows (hrows eq hmem) hne (by omega)
    rw [hsame]
    exact ofConstraints_alike hdifferences hbound
  · obtain ⟨hsame, hdifferences⟩ := shadow_words (v := v) hrows (by omega)
    rw [hsame]
    exact ofConstraints_alike hdifferences hbound

theorem eliminateSome_alike {count : Nat} {vars : List Nat} (hrows : Differences n bound rows)
    (hbound : 2 ^ count * bound < 2 ^ 62) : Alike n (2 ^ count * bound)
      (@eliminateSome .word64 count vars rows) (eliminateSome count vars rows) := by
  induction count generalizing vars rows bound with
  | zero =>
    unfold eliminateSome
    exact .some (hrows.mono (by omega))
  | succ count ih =>
    cases vars with
    | nil =>
      unfold eliminateSome
      exact .some (hrows.mono (Nat.le_mul_of_pos_left _ (by positivity)))
    | cons v vs =>
      have hdouble : 2 ^ (count + 1) * bound = 2 ^ count * (2 * bound) := by ring
      have hle : 2 * bound ≤ 2 ^ count * (2 * bound) := Nat.le_mul_of_pos_left _ (by positivity)
      rw [hdouble] at hbound ⊢
      unfold eliminateSome
      exact (eliminate_alike hrows (by omega)).bind fun rows' hrows' => ih hrows' hbound

theorem project_alike {cs : List Constraint} (vars : List Nat) (hcs : Differences n bound cs)
    (hbound : 2 ^ vars.length * bound < 2 ^ 62) :
    Alike n (2 ^ vars.length * bound) (@project .word64 cs vars) (project cs vars) := by
  have hle : bound ≤ 2 ^ vars.length * bound := Nat.le_mul_of_pos_left _ (by positivity)
  exact (ofConstraints_alike hcs (by omega)).bind fun rows hrows => eliminateSome_alike hrows hbound

end System

/-! ### Bounds -/

def Extended.Within (bound : Nat) (e : Extended) : Prop := ∀ x, e = .int x → x.natAbs ≤ bound

namespace Extended.Within

variable {bound : Nat} {a b : Extended}

theorem int {x : Int} (h : x.natAbs ≤ bound) : (Extended.int x).Within bound :=
  fun _ hy => Extended.int.inj hy ▸ h

theorem max (ha : a.Within bound) (hb : b.Within bound) : (a.max b).Within bound := by
  unfold Extended.max
  split
  · exact ha
  · exact hb

theorem min (ha : a.Within bound) (hb : b.Within bound) : (a.min b).Within bound := by
  unfold Extended.min
  split
  · exact ha
  · exact hb

end Extended.Within

namespace System

variable {n bound : Nat} {rows : System}

theorem tighten_words {r : Constraint} (hr : r.form.Difference n bound) (hbound : bound < 2 ^ 62) (v : Nat)
    {ends : Extended × Extended} (hlower : ends.1.Within bound) (hupper : ends.2.Within bound) :
    @tighten .word64 v ends r = tighten v ends r ∧
      (tighten v ends r).1.Within bound ∧ (tighten v ends r).2.Within bound := by
  obtain ⟨lower, upper⟩ := ends
  have hunit : (r.coeff v).natAbs ≤ 1 := hr.unit v
  have hconst : r.const.natAbs ≤ bound := hr.const
  have hwrap : Arithmetic.wrap r.const = r.const := Arithmetic.wrap_of_natAbs_lt (by omega)
  have hneg : Arithmetic.wrap (-r.const) = -r.const := Arithmetic.wrap_of_natAbs_lt (by omega)
  have hroot : ((-r.const).tdiv (r.coeff v)).natAbs ≤ bound :=
    (Int.natAbs_tdiv_le_natAbs _ _).trans (by omega)
  unfold tighten
  simp only [Arithmetic.fit_word64, Arithmetic.fit_exact, hneg]
  split
  · exact ⟨rfl, hlower, hupper⟩
  split
  · rw [Arithmetic.truncDiv_words (by omega)]
    have hvalue : (Extended.int (Arithmetic.truncDiv (-r.const) (r.coeff v))).Within bound := .int hroot
    exact ⟨rfl, hlower.max hvalue, hupper.min hvalue⟩
  split
  · have hone : r.coeff v = 1 := by omega
    have hwords : @Arithmetic.ceilDiv .word64 (-r.const) 1 = -r.const := by
      simp [Arithmetic.ceilDiv, Arithmetic.floorDiv, hwrap, hneg]
    have hexact : Arithmetic.ceilDiv (-r.const) 1 = -r.const := by
      simp [Arithmetic.ceilDiv, Arithmetic.floorDiv]
    rw [hone, hwords, hexact]
    exact ⟨rfl, hlower.max (.int (by omega)), hupper⟩
  · have hone : r.coeff v = -1 := by omega
    have hwords : @Arithmetic.floorDiv .word64 r.const 1 = r.const := by
      simp [Arithmetic.floorDiv, hwrap]
    have hexact : Arithmetic.floorDiv r.const 1 = r.const := by simp [Arithmetic.floorDiv]
    have hwrapOne : Arithmetic.wrap 1 = 1 := by decide
    rw [hone, neg_neg, hwrapOne, hwords, hexact]
    exact ⟨rfl, hlower, hupper.min (.int (by omega))⟩

theorem bounds_words (hrows : Differences n bound rows) (hbound : bound < 2 ^ 62) (v : Nat) :
    @bounds .word64 rows v = rows.bounds v ∧ ∀ interval lo hi, rows.bounds v = some interval →
      interval.ends? = some (lo, hi) → lo.natAbs ≤ bound ∧ hi.natAbs ≤ bound := by
  have hfold : ∀ ends : Extended × Extended, ends.1.Within bound → ends.2.Within bound →
      rows.foldl (@tighten .word64 v) ends = rows.foldl (tighten v) ends ∧
        (rows.foldl (tighten v) ends).1.Within bound ∧ (rows.foldl (tighten v) ends).2.Within bound := by
    induction rows with
    | nil => exact fun ends hlower hupper => ⟨rfl, hlower, hupper⟩
    | cons r rest ih =>
      intro ends hlower hupper
      obtain ⟨hsame, hlower, hupper⟩ := tighten_words (hrows r (by simp)) hbound v hlower hupper
      rw [List.foldl_cons, List.foldl_cons, hsame]
      exact ih (fun r hr => hrows r (by simp [hr])) _ hlower hupper
  obtain ⟨hsame, hlower, hupper⟩ := hfold (.negInf, .posInf) (by simp [Extended.Within])
    (by simp [Extended.Within])
  refine ⟨?_, fun interval lo hi h hends => ?_⟩
  · unfold bounds
    rw [hsame]
  simp only [bounds, Interval.between?] at h
  split at h
  · obtain rfl := Option.some.inj h
    unfold Interval.ends? at hends
    split at hends
    · rename_i hlo hhi
      obtain ⟨rfl, rfl⟩ : _ = lo ∧ _ = hi := by simpa using hends
      exact ⟨hlower _ hlo, hupper _ hhi⟩
    · cases hends
  · cases h

/-! ### Search -/

private structure Branch.Within (n bound : Nat) (b : Branch) : Prop where
  var : b.var < n
  lower : b.lower.natAbs ≤ bound
  upper : b.upper.natAbs ≤ bound

private theorem narrower_words {best : Option Branch} {next : Branch} (hbound : bound < 2 ^ 62)
    (hbest : ∀ b, best = some b → b.Within n bound) (hnext : next.Within n bound) :
    @Branch.narrower .word64 best next = Branch.narrower best next ∧
      (Branch.narrower best next).Within n bound := by
  unfold Branch.narrower
  cases best with
  | none => exact ⟨rfl, hnext⟩
  | some b =>
    have hb := hbest b rfl
    have h₁ := hb.lower
    have h₂ := hb.upper
    have h₃ := hnext.lower
    have h₄ := hnext.upper
    have hwidth : Arithmetic.wrap (b.upper - b.lower) = b.upper - b.lower :=
      Arithmetic.wrap_of_natAbs_lt (by omega)
    have hwidth' : Arithmetic.wrap (next.upper - next.lower) = next.upper - next.lower :=
      Arithmetic.wrap_of_natAbs_lt (by omega)
    simp only [Arithmetic.fit_word64, Arithmetic.fit_exact, hwidth, hwidth', true_and]
    split
    · exact hnext
    · exact hb

private theorem outlookFrom_words (hrows : Differences n bound rows) (hbound : 2 ^ n * bound < 2 ^ 62)
    {vs : List Nat} (hvs : ∀ v ∈ vs, v < n) {best : Option Branch}
    (hbest : ∀ b, best = some b → b.Within n (2 ^ n * bound)) :
    @outlookFrom .word64 n rows vs best = outlookFrom n rows vs best ∧
      ∀ b, outlookFrom n rows vs best = .narrowest b → b.Within n (2 ^ n * bound) := by
  induction vs generalizing best with
  | nil =>
    unfold outlookFrom
    cases best with
    | none => simp
    | some b => exact ⟨rfl, fun b' hb' => hbest b' (by rw [Outlook.narrowest.inj hb'])⟩
  | cons v vs ih =>
    have hv := hvs v (by simp)
    have hnext {best : Option Branch} := @ih (fun w hw => hvs w (by simp [hw])) best
    have hlength : ((List.range n).filter (· ≠ v)).length ≤ n :=
      (List.length_filter_le _ _).trans List.length_range.le
    have hle : 2 ^ ((List.range n).filter (· ≠ v)).length * bound ≤ 2 ^ n * bound :=
      Nat.mul_le_mul_right bound (Nat.pow_le_pow_right (by decide) hlength)
    obtain ⟨hproject, hdifferences⟩ := project_alike ((List.range n).filter (· ≠ v)) hrows (by omega)
    unfold outlookFrom
    rw [hproject]
    split
    · exact hnext hbest
    · cases hprojected : project rows ((List.range n).filter (· ≠ v)) with
      | none => simp
      | some rows' =>
        obtain ⟨hbounds, hends⟩ := bounds_words ((hdifferences rows' hprojected).mono hle) hbound v
        rw [Option.bind_some, Option.bind_some, hbounds]
        split
        · simp
        · rename_i interval hinterval
          split
          · exact hnext hbest
          · rename_i lo hi hlohi
            obtain ⟨hlo, hhi⟩ := hends interval lo hi hinterval hlohi
            have hnarrow : Branch.Within n (2 ^ n * bound) ⟨v, lo, hi⟩ := ⟨hv, hlo, hhi⟩
            obtain ⟨hsame, hwithin⟩ := narrower_words hbound hbest hnarrow
            rw [hsame]
            exact hnext fun b hb => Option.some.inj hb ▸ hwithin

private theorem tryValues_congr {f g : Int → Int → Bool × Int} {count : Nat} {x : Int}
    (h : ∀ y, x ≤ y → y < x + count → f y = g y) (budget : Int) :
    tryValues f count x budget = tryValues g count x budget := by
  induction count generalizing x budget with
  | zero => rfl
  | succ count ih =>
    have hrest := ih (x := x + 1) fun y hle hlt => h y (by omega) (by push_cast; omega)
    simp only [tryValues, h x le_rfl (by omega), hrest]

private theorem search_words {levels : Nat} (hrows : Differences n bound rows)
    (hbound : 2 ^ ((n + 1) * levels) * bound < 2 ^ 62) (budget : Int) :
    @search .word64 n levels rows budget = search n levels rows budget := by
  induction levels generalizing rows bound budget with
  | zero =>
    unfold search
    rfl
  | succ levels ih =>
    -- a level projects onto each variable, fixes one of them and eliminates it
    have hlevel : 2 ^ ((n + 1) * (levels + 1)) * bound = 2 ^ ((n + 1) * levels) * (2 * (2 ^ n * bound)) := by
      ring
    rw [hlevel] at hbound
    have hle : 2 * (2 ^ n * bound) ≤ 2 ^ ((n + 1) * levels) * (2 * (2 ^ n * bound)) :=
      Nat.le_mul_of_pos_left _ (by positivity)
    have hrows' := hrows.mono (Nat.le_mul_of_pos_left bound (Nat.two_pow_pos n))
    have hrange : ∀ v ∈ List.range n, v < n := by simp
    have hnone : ∀ b, none = some b → Branch.Within n (2 ^ n * bound) b := by simp
    obtain ⟨houtlook, hwithin⟩ := outlookFrom_words hrows (by omega) hrange hnone
    unfold search outlook
    rw [houtlook]
    split
    · rfl
    · rfl
    rename_i v lo hi hnarrowest
    obtain ⟨hv, hlo, hhi⟩ := hwithin _ hnarrowest
    simp only at hv hlo hhi
    have hwidth : Arithmetic.wrap (hi - lo) = hi - lo := Arithmetic.wrap_of_natAbs_lt (by omega)
    simp only [Arithmetic.fit_word64, Arithmetic.fit_exact, hwidth]
    split
    · rfl
    refine tryValues_congr (fun x hx hx' => funext fun budget => ?_) _
    have hvar := (Affine.Difference.var hv).mono (Nat.zero_le (2 ^ n * bound))
    have hconstant : (Affine.constant n x).Difference n (2 ^ n * bound) :=
      (Affine.Difference.constant n x).mono (by omega)
    have hfixed : @Constraint.equal .word64 (.var n v) (.constant n x) =
        Constraint.equal (.var n v) (.constant n x) :=
      congrArg Constraint.zero (hvar.sub_words hconstant (by omega))
    have hmore : Differences n (2 ^ n * bound) (rows ++ [.equal (.var n v) (.constant n x)]) := by
      intro r hr
      rcases List.mem_append.mp hr with hr | hr
      · exact hrows' r hr
      · obtain rfl := List.mem_singleton.mp hr
        refine ((Affine.Difference.var hv).sub_of_nonneg (.constant n x) (fun w => ?_) (by simp)).mono
          (by omega)
        rw [Affine.coeff_var hv]
        split <;> simp
    obtain ⟨hsame, hdifferences⟩ := (ofConstraints_alike hmore (by omega)).bind fun rows hrows =>
      eliminate_alike (v := v) hrows (by omega)
    rw [hfixed, hsame]
    cases hsystem : (ofConstraints (rows ++ [.equal (.var n v) (.constant n x)])).bind (·.eliminate v) with
    | none => rfl
    | some rows' => exact ih (hdifferences rows' hsystem) hbound _

theorem hasIntegerSolution_words (hrows : Differences n bound rows)
    (hbound : 2 ^ ((n + 1) * (n + 1)) * bound < 2 ^ 62) :
    @hasIntegerSolution .word64 n rows = hasIntegerSolution n rows :=
  congrArg Prod.fst (search_words hrows hbound searchBudget)

end System

end StreamLoom
