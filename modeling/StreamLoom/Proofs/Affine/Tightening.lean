import StreamLoom.Proofs.Affine.Solutions

/-!
# Systems in lowest terms

Building a system brings its constraints into lowest terms, merges those of one direction and ties
opposing ones which leave no slack. What all of these steps have in common is that they tighten:
`Tightens cs rows` says everything that a later proof may use about the rows that were made of some
constraints. It composes, so that a system is understood one step at a time.

A row that mentions a variable also leaves a trace: some row of the result is at least as strong and
mentions exactly the same variables. Loop bounds rely on it, because they only look at the rows that
mention the dimension at hand.
-/

namespace StreamLoom

attribute [local instance] Arithmetic.exact

namespace System

section

variable {K : Type} [CommRing K] [LinearOrder K]

def Solves (x : Nat → K) (rows : List Constraint) : Prop := ∀ r ∈ rows, r.Admits x

@[simp] theorem solves_nil (x : Nat → K) : Solves x [] := by simp [Solves]

@[simp] theorem solves_cons (x : Nat → K) (r : Constraint) (rows : List Constraint) :
    Solves x (r :: rows) ↔ r.Admits x ∧ Solves x rows := by
  simp [Solves]

@[simp] theorem solves_append (x : Nat → K) (rows rows' : List Constraint) :
    Solves x (rows ++ rows') ↔ Solves x rows ∧ Solves x rows' := by
  simp [Solves, or_imp, forall_and]

theorem solves_intCast [IsStrictOrderedRing K] (x : Nat → Int) (rows : List Constraint) :
    Solves (fun i => (x i : K)) rows ↔ Solves x rows :=
  forall₂_congr fun r _ => r.admits_intCast x

end

def Over (n : Nat) (rows : List Constraint) : Prop := ∀ r ∈ rows, r.vars = n

/-- Some row implies a constraint over the integers, and mentions the same variables. -/
def Retains (rows : List Constraint) (c : Constraint) : Prop :=
  ∃ r ∈ rows, (∀ x : Nat → Int, r.Admits x → c.Admits x) ∧ ∀ v, r.coeff v = 0 ↔ c.coeff v = 0

theorem retains_of_mem {rows : List Constraint} {c : Constraint} (h : c ∈ rows) : Retains rows c :=
  ⟨c, h, fun _ hx => hx, fun _ => Iff.rfl⟩

structure Tightens (cs rows : List Constraint) : Prop where
  width : ∀ n, Over n cs → Over n rows
  sound : ∀ x : Nat → Int, Solves x cs → Solves x rows
  complete : ∀ {K : Type} [CommRing K] [LinearOrder K] [IsStrictOrderedRing K] (x : Nat → K),
    Solves x rows → Solves x cs
  unmentioned : ∀ v, (∀ c ∈ cs, c.coeff v = 0) → ∀ r ∈ rows, r.coeff v = 0
  retains : ∀ c ∈ cs, (∃ v, c.coeff v ≠ 0) → Retains rows c

namespace Tightens

theorem refl (cs : List Constraint) : Tightens cs cs where
  width _ h := h
  sound _ h := h
  complete _ h := h
  unmentioned _ h := h
  retains _ hc _ := retains_of_mem hc

theorem trans {cs rows rows' : List Constraint} (h : Tightens cs rows) (h' : Tightens rows rows') :
    Tightens cs rows' where
  width n hn := h'.width n (h.width n hn)
  sound x hx := h'.sound x (h.sound x hx)
  complete x hx := h.complete x (h'.complete x hx)
  unmentioned v hv := h'.unmentioned v (h.unmentioned v hv)
  retains c hc hmentions := by
    obtain ⟨r, hr, himplies, hcoeffs⟩ := h.retains c hc hmentions
    obtain ⟨v, hv⟩ := hmentions
    obtain ⟨r', hr', himplies', hcoeffs'⟩ := h'.retains r hr ⟨v, fun hz => hv ((hcoeffs v).mp hz)⟩
    exact ⟨r', hr', fun x hx => himplies x (himplies' x hx),
      fun w => (hcoeffs' w).trans (hcoeffs w)⟩

theorem congr_left {cs cs' rows : List Constraint} (hmem : ∀ c, c ∈ cs ↔ c ∈ cs')
    (h : Tightens cs rows) : Tightens cs' rows where
  width n hn := h.width n fun c hc => hn c ((hmem c).mp hc)
  sound x hx := h.sound x fun c hc => hx c ((hmem c).mp hc)
  complete x hx := fun c hc => h.complete x hx c ((hmem c).mpr hc)
  unmentioned v hv := h.unmentioned v fun c hc => hv c ((hmem c).mp hc)
  retains c hc := h.retains c ((hmem c).mpr hc)

theorem cons {cs rows : List Constraint} (r : Constraint) (h : Tightens cs rows) :
    Tightens (r :: cs) (r :: rows) where
  width n hn := by
    intro r' hr'
    rcases List.mem_cons.mp hr' with rfl | hr'
    · exact hn _ (by simp)
    · exact h.width n (fun c hc => hn c (by simp [hc])) r' hr'
  sound x hx := by
    rw [solves_cons] at hx ⊢
    exact ⟨hx.1, h.sound x hx.2⟩
  complete x hx := by
    rw [solves_cons] at hx ⊢
    exact ⟨hx.1, h.complete x hx.2⟩
  unmentioned v hv := by
    intro r' hr'
    rcases List.mem_cons.mp hr' with rfl | hr'
    · exact hv _ (by simp)
    · exact h.unmentioned v (fun c hc => hv c (by simp [hc])) r' hr'
  retains c hc hmentions := by
    rcases List.mem_cons.mp hc with rfl | hc
    · exact retains_of_mem (by simp)
    · obtain ⟨r', hr', hrest⟩ := h.retains c hc hmentions
      exact ⟨r', by simp [hr'], hrest⟩

end Tightens

/-! ### Lowest terms -/

theorem properRows_tightens {cs : List Constraint} {rows : System} (h : properRows cs = some rows) :
    Tightens cs rows := by
  induction cs generalizing rows with
  | nil =>
    obtain rfl : [] = rows := by simpa [properRows] using h
    exact .refl []
  | cons c rest ih =>
    rw [properRows] at h
    split at h
    · simp at h
    · rename_i halways
      have hrest := ih h
      refine ⟨fun n hn => hrest.width n fun c hc => hn c (by simp [hc]),
        fun x hx => hrest.sound x fun c hc => hx c (by simp [hc]), fun x hx => ?_,
        fun v hv => hrest.unmentioned v fun c hc => hv c (by simp [hc]), fun c' hc' hmentions => ?_⟩
      · rw [solves_cons]
        exact ⟨Constraint.admits_of_reduce_always halways x, hrest.complete x hx⟩
      · rcases List.mem_cons.mp hc' with rfl | hc'
        · obtain ⟨v, hv⟩ := hmentions
          exact absurd (Constraint.coeff_eq_zero_of_reduce_always halways v) hv
        · exact hrest.retains c' hc' hmentions
    · rename_i row hproper
      obtain ⟨rest', hrest', rfl⟩ := Option.map_eq_some_iff.mp h
      have hshape := Constraint.reduce_proper_shape hproper
      refine Tightens.trans ?_ (.cons row (ih hrest'))
      refine ⟨fun n hn => ?_, fun x hx => ?_, fun x hx => ?_, fun v hv => ?_, fun c' hc' _ => ?_⟩
      · intro r hr
        rcases List.mem_cons.mp hr with rfl | hr
        · exact hshape.1.trans (hn c (by simp))
        · exact hn r (by simp [hr])
      · rw [solves_cons] at hx ⊢
        exact ⟨Constraint.reduce_proper_admits hproper hx.1, hx.2⟩
      · rw [solves_cons] at hx ⊢
        exact ⟨Constraint.admits_of_reduce_proper hproper hx.1, hx.2⟩
      · intro r hr
        rcases List.mem_cons.mp hr with rfl | hr
        · exact (hshape.2.2 v).mpr (hv c (by simp))
        · exact hv r (by simp [hr])
      · rcases List.mem_cons.mp hc' with rfl | hc'
        · exact ⟨row, by simp, fun x hx => Constraint.admits_of_reduce_proper hproper hx, hshape.2.2⟩
        · exact retains_of_mem (by simp [hc'])

theorem not_solves_of_properRows {cs : List Constraint} (h : properRows cs = none) (x : Nat → Int) :
    ¬ Solves x cs := by
  induction cs with
  | nil => simp [properRows] at h
  | cons c rest ih =>
    rw [properRows] at h
    rw [solves_cons]
    split at h
    · rename_i hnever
      exact fun hx => Constraint.not_admits_of_reduce_never hnever x hx.1
    · exact fun hx => ih h hx.2
    · exact fun hx => ih (by simpa using h) hx.2

/-! ### One row per direction -/

/-- No two inequalities have the same direction. -/
def Distinct (rows : List Constraint) : Prop :=
  rows.Pairwise fun r r' => r.equality = false → r'.equality = false → r.coeffs ≠ r'.coeffs

/-- A row that implies another one of the same direction makes it superfluous. -/
private theorem absorb {row r : Constraint} {rest : List Constraint} (hcoeffs : row.coeffs = r.coeffs)
    (heq : row.equality = false) (heq' : r.equality = false) (hconst : row.const ≤ r.const) :
    Tightens (row :: r :: rest) (row :: rest) := by
  have himplies : ∀ {K : Type} [CommRing K] [LinearOrder K] [IsStrictOrderedRing K] (x : Nat → K),
      row.Admits x → r.Admits x := by
    intro K _ _ _ x hx
    simp only [Constraint.Admits, heq, heq'] at hx ⊢
    rw [Constraint.valueAt_of_coeffs_eq hcoeffs.symm x]
    have hgap : (0 : K) ≤ ((r.const - row.const : Int) : K) := Int.cast_nonneg (by omega)
    exact add_nonneg hx hgap
  refine ⟨fun n hn r' hr' => hn r' ?_, fun x hx r' hr' => hx r' ?_, fun x hx => ?_,
    fun v hv r' hr' => hv r' ?_, fun c hc _ => ?_⟩
  · rcases List.mem_cons.mp hr' with rfl | hr' <;> simp_all
  · rcases List.mem_cons.mp hr' with rfl | hr' <;> simp_all
  · rw [solves_cons] at hx
    rw [solves_cons, solves_cons]
    exact ⟨hx.1, himplies x hx.1, hx.2⟩
  · rcases List.mem_cons.mp hr' with rfl | hr' <;> simp_all
  · rcases List.mem_cons.mp hc with rfl | hc
    · exact retains_of_mem (by simp)
    · rcases List.mem_cons.mp hc with rfl | hc
      · refine ⟨row, by simp, fun x hx => himplies x hx, fun v => ?_⟩
        rw [Constraint.coeff_of_coeffs_eq hcoeffs]
      · exact retains_of_mem (by simp [hc])

theorem insert_tightens {row : Constraint} {rows rows' : System} (h : insert row rows = some rows') :
    Tightens (row :: rows) rows' := by
  induction rows generalizing rows' with
  | nil =>
    obtain rfl : [row] = rows' := by simpa [insert] using h
    exact .refl _
  | cons r rest ih =>
    rw [insert] at h
    split at h
    · rename_i hsame
      split at h
      · split at h
        · rename_i hconst
          obtain rfl : r :: rest = rows' := by simpa using h
          obtain rfl := Constraint.eq_of_parts hsame.1 hsame.2 hconst
          exact (Tightens.refl (r :: rest)).congr_left (by simp)
        · simp at h
      · rename_i hequality
        have heq : row.equality = false := by simpa using hequality
        obtain rfl : (if row.const < r.const then row else r) :: rest = rows' := by simpa using h
        split
        · exact absorb hsame.2.symm heq (hsame.1.trans heq) (by omega)
        · refine (absorb hsame.2 (hsame.1.trans heq) heq (by omega)).congr_left fun c => ?_
          simp only [List.mem_cons]
          tauto
    · obtain ⟨rest', hrest', rfl⟩ := Option.map_eq_some_iff.mp h
      refine ((ih hrest').cons r).congr_left fun c => ?_
      simp only [List.mem_cons]
      tauto

theorem not_solves_of_insert {row : Constraint} {rows : System} (h : insert row rows = none)
    (x : Nat → Int) : ¬ Solves x (row :: rows) := by
  induction rows with
  | nil => simp [insert] at h
  | cons r rest ih =>
    rw [insert] at h
    rw [solves_cons, solves_cons]
    rintro ⟨hrow, hr, hrest⟩
    split at h
    · rename_i hsame
      split at h
      · rename_i hequality
        split at h
        · simp at h
        · rename_i hconst
          have hshift := Constraint.valueAt_of_coeffs_eq hsame.2 x
          simp only [Constraint.Admits, hsame.1, hequality, if_true] at hrow hr
          simp only [hrow, hr, Int.cast_id] at hshift
          omega
      · simp at h
    · exact ih (by simpa using h) ((solves_cons _ _ _).mpr ⟨hrow, hrest⟩)

/-- Merging a row keeps one of the rows that there were. -/
theorem mem_of_mem_insert {row : Constraint} {rows rows' : System}
    (h : insert row rows = some rows') {r : Constraint} (hr : r ∈ rows') : r ∈ row :: rows := by
  induction rows generalizing rows' with
  | nil =>
    obtain rfl : [row] = rows' := by simpa [insert] using h
    exact hr
  | cons r₀ rest ih =>
    rw [insert] at h
    split at h
    · split at h
      · split at h
        · obtain rfl : r₀ :: rest = rows' := by simpa using h
          exact List.mem_cons_of_mem _ hr
        · simp at h
      · obtain rfl : (if row.const < r₀.const then row else r₀) :: rest = rows' := by simpa using h
        split at hr <;> (rcases List.mem_cons.mp hr with rfl | hr <;> simp_all)
    · obtain ⟨rest', hrest', rfl⟩ := Option.map_eq_some_iff.mp h
      rcases List.mem_cons.mp hr with rfl | hr
      · simp
      · rcases List.mem_cons.mp (ih hrest' hr) with rfl | hr' <;> simp_all

theorem insert_distinct {row : Constraint} {rows rows' : System} (hrows : Distinct rows)
    (h : insert row rows = some rows') : Distinct rows' := by
  induction rows generalizing rows' with
  | nil =>
    obtain rfl : [row] = rows' := by simpa [insert] using h
    simp [Distinct]
  | cons r rest ih =>
    obtain ⟨hhead, htail⟩ := List.pairwise_cons.mp hrows
    rw [insert] at h
    split at h
    · rename_i hsame
      split at h
      · split at h
        · obtain rfl : r :: rest = rows' := by simpa using h
          exact hrows
        · simp at h
      · obtain rfl : (if row.const < r.const then row else r) :: rest = rows' := by simpa using h
        refine List.pairwise_cons.mpr ⟨fun r' hr' heq heq' => ?_, htail⟩
        split at heq
        · rename_i hlt
          rw [if_pos hlt, ← hsame.2]
          exact hhead r' hr' (hsame.1.trans heq) heq'
        · rename_i hlt
          rw [if_neg hlt]
          exact hhead r' hr' heq heq'
    · rename_i hdiffers
      obtain ⟨rest', hrest', rfl⟩ := Option.map_eq_some_iff.mp h
      refine List.pairwise_cons.mpr ⟨fun r' hr' heq heq' hcoeffs => ?_, ih htail hrest'⟩
      rcases List.mem_cons.mp (mem_of_mem_insert hrest' hr') with rfl | hr'
      · exact hdiffers ⟨heq.trans heq'.symm, hcoeffs⟩
      · exact hhead r' hr' heq heq' hcoeffs

/-! ### Opposing rows -/

theorem mem_of_bounding? {rows : System} {direction : List Int} {c : Constraint}
    (h : rows.bounding? direction = some c) :
    c ∈ rows ∧ c.equality = false ∧ c.coeffs = direction := by
  have hmem := List.mem_of_find?_eq_some h
  have hholds := List.find?_some h
  simp only [Bool.and_eq_true, Bool.not_eq_true', beq_iff_eq] at hholds
  exact ⟨hmem, hholds.1, hholds.2⟩

private theorem valueAt_opposite {K : Type} [CommRing K] {c d : Constraint}
    (h : d.coeffs = c.coeffs.map fun x => -x) (x : Nat → K) :
    d.form.valueAt x = -c.form.valueAt x + ((c.const + d.const : Int) : K) := by
  have hlinear : Affine.linear d.form.coeffs x = -Affine.linear c.form.coeffs x := by
    have hforms : d.form.coeffs = c.form.coeffs.map (- ·) := h
    rw [hforms, Affine.linear_map_neg]
  simp only [Affine.valueAt, hlinear, Constraint.const]
  push_cast
  ring

private theorem coeff_opposite {c d : Constraint} (h : d.coeffs = c.coeffs.map fun x => -x)
    (v : Nat) : d.coeff v = 0 ↔ c.coeff v = 0 := by
  have hforms : d.form.coeffs = c.form.coeffs.map fun x => -x := h
  by_cases hv : v < c.form.coeffs.length
  · simp [Constraint.coeff, Affine.coeff, hforms, List.getD_eq_getElem?_getD, hv]
  · simp [Constraint.coeff, Affine.coeff, hforms, List.getD_eq_getElem?_getD,
      List.getElem?_eq_none (Nat.le_of_not_lt hv)]

/-- The equality that two opposing inequalities without slack become, in lowest terms. -/
private def tiedRow (c : Constraint) : Constraint :=
  match (Constraint.zero c.form).reduce with
  | .proper row => row
  | _ => .zero c.form

private theorem tiedRow_tightens (c : Constraint) : Tightens [.zero c.form] [tiedRow c] := by
  unfold tiedRow
  split
  · rename_i row hproper
    have hrows : properRows [Constraint.zero c.form] = some [row] := by
      simp [properRows, hproper]
    exact properRows_tightens hrows
  · exact .refl _

/-- Everything that comparing the inequalities of a direction can lead to. -/
theorem close_cases (rows : System) (direction : List Int) :
    close rows direction = some rows ∨
    ∃ c ∈ rows, ∃ d ∈ rows, c.equality = false ∧ d.equality = false ∧ c.coeffs = direction ∧
      d.coeffs = direction.map (fun x => -x) ∧
      ((c.const + d.const < 0 ∧ close rows direction = none) ∨
      (c.const + d.const = 0 ∧ close rows direction = insert (tiedRow c) (rows.filter fun r =>
        r.equality || (r.coeffs != direction && r.coeffs != direction.map fun x => -x)))) := by
  unfold close
  simp only [Arithmetic.fit_exact]
  split
  · rename_i c d hc hd
    obtain ⟨hcmem, hceq, hccoeffs⟩ := mem_of_bounding? hc
    obtain ⟨hdmem, hdeq, hdcoeffs⟩ := mem_of_bounding? hd
    by_cases hneg : c.const + d.const < 0
    · exact .inr ⟨c, hcmem, d, hdmem, hceq, hdeq, hccoeffs, hdcoeffs, .inl ⟨hneg, by simp [hneg]⟩⟩
    · by_cases hzero : c.const + d.const = 0
      · refine .inr ⟨c, hcmem, d, hdmem, hceq, hdeq, hccoeffs, hdcoeffs, .inr ⟨hzero, ?_⟩⟩
        rw [if_neg hneg, if_pos hzero]
        rfl
      · exact .inl (by rw [if_neg hneg, if_neg hzero])
  · exact .inl rfl

theorem close_distinct {rows rows' : System} {direction : List Int} (hrows : Distinct rows)
    (h : close rows direction = some rows') : Distinct rows' := by
  rcases close_cases rows direction with hsame | ⟨_, _, _, _, _, _, _, _, ⟨_, hnone⟩ | ⟨_, hinsert⟩⟩
  · rw [hsame] at h
    exact Option.some.inj h ▸ hrows
  · rw [hnone] at h
    simp at h
  · rw [hinsert] at h
    exact insert_distinct (hrows.filter _) h

/-- In a system with one inequality per direction, the direction tells which row is meant. -/
private theorem eq_of_distinct {rows : List Constraint} (hrows : Distinct rows) {r r' : Constraint}
    (hr : r ∈ rows) (hr' : r' ∈ rows) (heq : r.equality = false) (heq' : r'.equality = false)
    (hcoeffs : r.coeffs = r'.coeffs) : r = r' := by
  induction rows with
  | nil => simp at hr
  | cons r₀ rest ih =>
    obtain ⟨hhead, htail⟩ := List.pairwise_cons.mp hrows
    rcases List.mem_cons.mp hr with rfl | hrest <;> rcases List.mem_cons.mp hr' with rfl | hrest'
    · rfl
    · exact absurd hcoeffs (hhead r' hrest' heq heq')
    · exact absurd hcoeffs.symm (hhead r hrest heq' heq)
    · exact ih htail hrest hrest'

/-- A row that is left out is one of the two that an equality replaces. -/
private theorem replaced_cases {rows : System} (hrows : Distinct rows) {c d : Constraint} (hc : c ∈ rows)
    (hd : d ∈ rows) (hceq : c.equality = false) (hdeq : d.equality = false)
    (hopposite : d.coeffs = c.coeffs.map fun x => -x) {r : Constraint} (hr : r ∈ rows) :
    r = c ∨ r = d ∨ r ∈ rows.filter fun r =>
      r.equality || (r.coeffs != c.coeffs && r.coeffs != c.coeffs.map fun x => -x) := by
  by_cases heq : r.equality = true
  · exact .inr (.inr (List.mem_filter.mpr ⟨hr, by simp [heq]⟩))
  · have hfalse : r.equality = false := by simpa using heq
    by_cases hsame : r.coeffs = c.coeffs
    · exact .inl (eq_of_distinct hrows hr hc hfalse hceq hsame)
    · by_cases hother : r.coeffs = c.coeffs.map fun x => -x
      · exact .inr (.inl (eq_of_distinct hrows hr hd hfalse hdeq (hother.trans hopposite.symm)))
      · exact .inr (.inr (List.mem_filter.mpr ⟨hr, by simp [hsame, hother]⟩))

private theorem admits_of_tiedRow {c d : Constraint} (hceq : c.equality = false)
    (hdeq : d.equality = false) (hopposite : d.coeffs = c.coeffs.map fun x => -x)
    (hslack : c.const + d.const = 0) {K : Type} [CommRing K] [LinearOrder K] [IsStrictOrderedRing K]
    {x : Nat → K} (hx : (tiedRow c).Admits x) : c.Admits x ∧ d.Admits x := by
  have hzero : c.form.valueAt x = 0 := by
    have := (tiedRow_tightens c).complete x ((solves_cons _ _ _).mpr ⟨hx, solves_nil x⟩)
    simpa using this
  have hvalue := valueAt_opposite hopposite x
  rw [hzero, hslack] at hvalue
  simp [Constraint.Admits, hceq, hdeq, hzero, hvalue]

private theorem coeff_tiedRow (c : Constraint) (v : Nat) : (tiedRow c).coeff v = 0 ↔ c.coeff v = 0 := by
  unfold tiedRow
  split
  · rename_i row hproper
    exact (Constraint.reduce_proper_shape hproper).2.2 v
  · exact Iff.rfl

private theorem tie_tightens {rows : System} (hrows : Distinct rows) {c d : Constraint} (hc : c ∈ rows)
    (hd : d ∈ rows) (hceq : c.equality = false) (hdeq : d.equality = false)
    (hopposite : d.coeffs = c.coeffs.map fun x => -x) (hslack : c.const + d.const = 0) :
    Tightens rows (tiedRow c :: rows.filter fun r =>
      r.equality || (r.coeffs != c.coeffs && r.coeffs != c.coeffs.map fun x => -x)) := by
  have htied := tiedRow_tightens c
  refine ⟨fun n hn r hr => ?_, fun x hx => ?_, fun x hx r hr => ?_, fun v hv r hr => ?_,
    fun r hr hmentions => ?_⟩
  · rcases List.mem_cons.mp hr with rfl | hr
    · exact htied.width n (fun r hr => by rw [List.mem_singleton.mp hr]; exact hn c hc) _ (by simp)
    · exact hn r (List.mem_filter.mp hr).1
  · have hcx := hx c hc
    have hdx := hx d hd
    simp only [Constraint.Admits, hceq, hdeq] at hcx hdx
    rw [valueAt_opposite hopposite x, hslack] at hdx
    have hzero : c.form.valueAt x = 0 := le_antisymm (by simpa using hdx) (by simpa using hcx)
    refine (solves_cons _ _ _).mpr ⟨?_, fun r hr => hx r (List.mem_filter.mp hr).1⟩
    have := htied.sound x ((solves_cons _ _ _).mpr ⟨by simpa using hzero, solves_nil x⟩)
    simpa using this
  · rw [solves_cons] at hx
    rcases replaced_cases hrows hc hd hceq hdeq hopposite hr with rfl | rfl | hr
    · exact (admits_of_tiedRow hceq hdeq hopposite hslack hx.1).1
    · exact (admits_of_tiedRow hceq hdeq hopposite hslack hx.1).2
    · exact hx.2 r hr
  · rcases List.mem_cons.mp hr with rfl | hr
    · exact (coeff_tiedRow c v).mpr (hv c hc)
    · exact hv r (List.mem_filter.mp hr).1
  · rcases replaced_cases hrows hc hd hceq hdeq hopposite hr with rfl | rfl | hr
    · exact ⟨tiedRow r, by simp, fun x hx => (admits_of_tiedRow hceq hdeq hopposite hslack hx).1,
        coeff_tiedRow r⟩
    · exact ⟨tiedRow c, by simp, fun x hx => (admits_of_tiedRow hceq hdeq hopposite hslack hx).2,
        fun v => (coeff_tiedRow c v).trans (coeff_opposite hopposite v).symm⟩
    · exact retains_of_mem (by simp [hr])

theorem close_tightens {rows rows' : System} {direction : List Int} (hrows : Distinct rows)
    (h : close rows direction = some rows') : Tightens rows rows' := by
  rcases close_cases rows direction with hsame |
    ⟨c, hc, d, hd, hceq, hdeq, rfl, hopposite, ⟨_, hnone⟩ | ⟨hslack, hinsert⟩⟩
  · rw [hsame] at h
    exact Option.some.inj h ▸ .refl rows
  · rw [hnone] at h
    simp at h
  · rw [hinsert] at h
    exact (tie_tightens hrows hc hd hceq hdeq hopposite hslack).trans (insert_tightens h)

theorem not_solves_of_close {rows : System} {direction : List Int} (hrows : Distinct rows)
    (h : close rows direction = none) (x : Nat → Int) : ¬ Solves x rows := by
  rcases close_cases rows direction with hsame |
    ⟨c, hc, d, hd, hceq, hdeq, rfl, hopposite, ⟨hslack, _⟩ | ⟨hslack, hinsert⟩⟩
  · rw [hsame] at h
    simp at h
  · intro hx
    have hcx := hx c hc
    have hdx := hx d hd
    simp only [Constraint.Admits, hceq, hdeq] at hcx hdx
    rw [valueAt_opposite hopposite x] at hdx
    simp only [Int.cast_id] at hdx
    have hcx' : 0 ≤ c.form.valueAt x := by simpa using hcx
    have hdx' : 0 ≤ -c.form.valueAt x + (c.const + d.const) := by simpa using hdx
    omega
  · rw [hinsert] at h
    exact fun hx => not_solves_of_insert h x
      ((tie_tightens hrows hc hd hceq hdeq hopposite hslack).sound x hx)

/-! ### Whole systems -/

private theorem foldlM_insert (cs : List Constraint) {rows : System} (hrows : Distinct rows) :
    match cs.foldlM (fun rows row => insert row rows) rows with
    | some rows' => Tightens (cs ++ rows) rows' ∧ Distinct rows'
    | none => ∀ x : Nat → Int, ¬ Solves x (cs ++ rows) := by
  induction cs generalizing rows with
  | nil => exact ⟨.refl rows, hrows⟩
  | cons c rest ih =>
    rw [List.foldlM_cons]
    cases hinsert : insert c rows with
    | none =>
      intro x hx
      rw [List.cons_append, solves_cons, solves_append] at hx
      exact not_solves_of_insert hinsert x ((solves_cons _ _ _).mpr ⟨hx.1, hx.2.2⟩)
    | some rows₁ =>
      have hstep := insert_tightens hinsert
      have hrest := ih (insert_distinct hrows hinsert)
      simp only [Option.bind_eq_bind, Option.bind_some]
      -- the rows that have been dealt with are put in front
      have hbeside : ∀ l : List Constraint, Tightens (l ++ (c :: rows)) (l ++ rows₁) := by
        intro l
        induction l with
        | nil => exact hstep
        | cons r l ih => exact ih.cons r
      split at hrest
      · rename_i rows' hfold
        refine ⟨((hbeside rest).trans hrest.1).congr_left fun r => ?_, hrest.2⟩
        simp only [List.mem_append, List.mem_cons]
        tauto
      · intro x hx
        refine hrest x ((hbeside rest).sound x ?_)
        rw [List.cons_append, solves_cons, solves_append] at hx
        rw [solves_append, solves_cons]
        exact ⟨hx.2.1, hx.1, hx.2.2⟩

private theorem foldlM_close {rows : System} (hrows : Distinct rows) (rs : List Constraint) :
    match rs.foldlM (fun rows r => close rows r.coeffs) rows with
    | some rows' => Tightens rows rows'
    | none => ∀ x : Nat → Int, ¬ Solves x rows := by
  induction rs generalizing rows with
  | nil => exact .refl rows
  | cons r rest ih =>
    rw [List.foldlM_cons]
    cases hclose : close rows r.coeffs with
    | none => exact not_solves_of_close hrows hclose
    | some rows₁ =>
      have hstep := close_tightens hrows hclose
      have hrest := ih (close_distinct hrows hclose)
      simp only [Option.bind_eq_bind, Option.bind_some]
      split at hrest
      · rename_i rows' hfold
        exact hstep.trans hrest
      · exact fun x hx => hrest x (hstep.sound x hx)

theorem ofConstraints_tightens {cs : List Constraint} {rows : System}
    (h : ofConstraints cs = some rows) : Tightens cs rows := by
  simp only [ofConstraints, Option.bind_eq_bind, Option.bind_eq_some_iff] at h
  obtain ⟨proper, hproper, rows₁, hfold, hclosed⟩ := h
  have hinserted := foldlM_insert proper List.Pairwise.nil
  rw [hfold] at hinserted
  have hfinal := foldlM_close hinserted.2 (rows₁.filter (!·.equality))
  rw [hclosed] at hfinal
  have hmerged : Tightens proper rows₁ := by simpa using hinserted.1
  exact (properRows_tightens hproper).trans (hmerged.trans hfinal)

theorem not_solves_of_ofConstraints {cs : List Constraint} (h : ofConstraints cs = none)
    (x : Nat → Int) : ¬ Solves x cs := by
  intro hx
  cases hproper : properRows cs with
  | none => exact not_solves_of_properRows hproper x hx
  | some proper =>
    have hx' := (properRows_tightens hproper).sound x hx
    have hinserted := foldlM_insert proper List.Pairwise.nil
    cases hfold : proper.foldlM (fun rows row => insert row rows) [] with
    | none =>
      rw [hfold] at hinserted
      exact hinserted x (by simpa using hx')
    | some rows₁ =>
      rw [hfold] at hinserted
      have hfinal := foldlM_close hinserted.2 (rows₁.filter (!·.equality))
      have hnone : (rows₁.filter (!·.equality)).foldlM (fun rows r => close rows r.coeffs) rows₁ =
          none := by
        simpa [ofConstraints, hproper, hfold] using h
      rw [hnone] at hfinal
      exact hfinal x (hinserted.1.sound x (by simpa using hx'))

/-! ### Rows are in lowest terms -/

theorem properRows_lowest {cs : List Constraint} {rows : System} (h : properRows cs = some rows) :
    ∀ r ∈ rows, r.Lowest := by
  induction cs generalizing rows with
  | nil =>
    obtain rfl : [] = rows := by simpa [properRows] using h
    simp
  | cons c rest ih =>
    rw [properRows] at h
    split at h
    · simp at h
    · exact ih h
    · rename_i row hproper
      obtain ⟨rest', hrest', rfl⟩ := Option.map_eq_some_iff.mp h
      intro r hr
      rcases List.mem_cons.mp hr with rfl | hr
      · exact Constraint.reduce_proper_lowest hproper
      · exact ih hrest' r hr

private theorem tiedRow_lowest {c : Constraint} (hc : c.Lowest) : (tiedRow c).Lowest := by
  unfold tiedRow
  split
  · rename_i row hproper
    exact Constraint.reduce_proper_lowest hproper
  · exact hc

private theorem close_lowest {rows rows' : System} {direction : List Int}
    (hrows : ∀ r ∈ rows, r.Lowest) (h : close rows direction = some rows') :
    ∀ r ∈ rows', r.Lowest := by
  rcases close_cases rows direction with hsame |
    ⟨c, hc, _, _, _, _, _, _, ⟨_, hnone⟩ | ⟨_, hinsert⟩⟩
  · rw [hsame] at h
    exact Option.some.inj h ▸ hrows
  · rw [hnone] at h
    simp at h
  · rw [hinsert] at h
    intro r hr
    rcases List.mem_cons.mp (mem_of_mem_insert h hr) with rfl | hr
    · exact tiedRow_lowest (hrows c hc)
    · exact hrows r (List.mem_filter.mp hr).1

private theorem foldlM_invariant {α β : Type} {P : β → Prop} {f : β → α → Option β}
    {as : List α} (hstep : ∀ b a b', a ∈ as → P b → f b a = some b' → P b') {b b' : β} (hb : P b) (h : as.foldlM f b = some b') : P b' := by
  induction as generalizing b with
  | nil => exact Option.some.inj h ▸ hb
  | cons a as ih =>
    rw [List.foldlM_cons] at h
    obtain ⟨b₁, hfirst, hrest⟩ := Option.bind_eq_some_iff.mp h
    exact ih (fun b a b' hmem => hstep b a b' (by simp [hmem])) (hstep b a b₁ (by simp) hb hfirst) hrest

theorem ofConstraints_lowest {cs : List Constraint} {rows : System}
    (h : ofConstraints cs = some rows) : ∀ r ∈ rows, r.Lowest := by
  simp only [ofConstraints, Option.bind_eq_bind, Option.bind_eq_some_iff] at h
  obtain ⟨proper, hproper, rows₁, hfold, hclosed⟩ := h
  have hlowest := properRows_lowest hproper
  have hmerged : ∀ r ∈ rows₁, r.Lowest := by
    refine foldlM_invariant (P := fun rows : System => ∀ r ∈ rows, r.Lowest) ?_ (by simp) hfold
    intro rows row rows' hmem hrows hinsert r hr
    rcases List.mem_cons.mp (mem_of_mem_insert hinsert hr) with rfl | hr
    · exact hlowest _ hmem
    · exact hrows r hr
  refine foldlM_invariant (P := fun rows : System => ∀ r ∈ rows, r.Lowest) ?_ hmerged hclosed
  intro rows row rows' _ hrows hclose
  exact close_lowest hrows hclose

end System

end StreamLoom
