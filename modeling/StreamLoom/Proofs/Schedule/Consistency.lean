import StreamLoom.Proofs.Schedule.Synthesis

/-!
# Consistent schedules

What those who use a schedule may rely on, without knowing how it was found. `Consistent` says which
points a statement executes in each phase and when, and `Respects` that the placements of each phase
respect the dependencies of the model.
-/

namespace StreamLoom

attribute [local instance] Arithmetic.exact

open StreamLoom.System (Solves Over)

theorem Placement.le_widthOf {ps : List Placement} {p : Placement} (hp : p ∈ ps) :
    2 + p.inner.length ≤ widthOf ps := by
  have hfold : ∀ (ps : List Placement) (w : Nat),
      w ≤ ps.foldl (fun w p => max w (2 + p.inner.length)) w ∧
        ∀ p ∈ ps, 2 + p.inner.length ≤ ps.foldl (fun w p => max w (2 + p.inner.length)) w := by
    intro ps
    induction ps with
    | nil => simp
    | cons q ps ih =>
      intro w
      obtain ⟨hfirst, hrest⟩ := ih (max w (2 + q.inner.length))
      rw [List.foldl_cons]
      refine ⟨by omega, fun p hp => ?_⟩
      rcases List.mem_cons.mp hp with rfl | hp
      · omega
      · exact hrest p hp
  exact (hfold ps 2).2 p hp

namespace Schedule

/-- What a statement executes in the prologue. -/
def earlyDomain (s : Schedule) (st : Statement) (i : Nat) : PointSet :=
  if s.isSteady i then before st (s.flow i) (s.offset i) else st.domain

structure Early (s : Schedule) (i : Nat) (st : Statement) (p : Placement) : Prop where
  domain : p.domain = s.earlyDomain st i
  carrier : ∀ c, p.carrier = some c → c < st.dims
  scale : 0 < p.scale
  width : 2 + p.inner.length ≤ s.prologue.width

structure Late (s : Schedule) (i : Nat) (st : Statement) (flow : Nat) (p : Placement) : Prop where
  flows : st.flow = some flow
  inside : flow < st.dims
  carrier : p.carrier = some flow
  domain : p.domain = firstPeriod st flow (s.offset i) (s.period i)
  scale : 0 < p.scale
  period : 0 < s.period i
  length : p.scale * s.period i = s.length
  first : 0 ≤ p.scale * s.offset i + p.delay
  last : p.scale * (s.offset i - 1) + p.delay < 0
  periodic : ∀ x : Nat → Int, Solves x st.domain.cons → ∀ t, s.offset i ≤ t →
    Solves (Function.update x flow t) st.domain.cons
  width : 2 + p.inner.length ≤ s.steady.width

/-- A schedule executes the points of a model in its phases. -/
structure Consistent (s : Schedule) (m : Model) : Prop where
  flows : ∀ (i : Nat) (st : Statement), m.statements[i]? = some st → s.flow i = st.flow.getD 0
  periods : ∀ (i j : Nat) (st st' : Statement), m.statements[i]? = some st →
    m.statements[j]? = some st' → st.array = st'.array → s.period i = s.period j
  early : ∀ (i : Nat) (p : Placement), s.prologue.placement? i = some p →
    ∃ st, m.statements[i]? = some st ∧ s.Early i st p
  late : ∀ (i : Nat) (p : Placement), s.steady.placement? i = some p →
    ∃ st flow, m.statements[i]? = some st ∧ s.Late i st flow p
  covered : ∀ (i : Nat) (st : Statement) (x : Nat → Int), m.statements[i]? = some st →
    (s.earlyDomain st i).Has x → ∃ p, s.prologue.placement? i = some p
  earlyOrder : ∀ (i j : Nat) (p q : Placement), s.prologue.placement? i = some p →
    s.prologue.placement? j = some q → p.order = q.order → i = j
  lateOrder : ∀ (i j : Nat) (p q : Placement), s.steady.placement? i = some p →
    s.steady.placement? j = some q → p.order = q.order → i = j

structure Respects (s : Schedule) (m : Model) : Prop where
  early : ∀ d ∈ m.dependencies, ∀ producer consumer, d.Joins m producer consumer → ∀ x y,
    d.relation.Links x y → (s.earlyDomain consumer d.consumer).Has x →
    (s.earlyDomain producer d.producer).Has y → ∀ q p, s.prologue.placement? d.producer = some q →
    s.prologue.placement? d.consumer = some p → q.timeAt y < p.timeAt x
  late : ∀ d ∈ m.dependencies, ∀ producer consumer, d.Joins m producer consumer → ∀ x y,
    d.relation.Links x y → ∀ q p, s.steady.placement? d.producer = some q →
    s.steady.placement? d.consumer = some p → q.timeAt y < p.timeAt x
  outside : ∀ d ∈ m.dependencies, ∀ producer consumer, d.Joins m producer consumer → ∀ x y,
    d.relation.Links x y → s.isSteady d.consumer = false → ∀ q,
    s.steady.placement? d.producer = some q → q.thetaAt y < 0

section

variable {m : Model} {parts : Parts} {options : ScheduleOptions} {i : Nat} {st : Statement}

/-! ### Placements of a synthesis -/

private theorem join_map_range {β : Type} {n : Nat} (f : Nat → Option β) (i : Nat) :
    (((List.range n).map f)[i]?).join = if i < n then f i else none := by
  split
  · rename_i hi
    simp [hi]
  · rename_i hi
    simp [hi]

private theorem late_cases {p : Placement} (h : (parts.schedule m).steady.placement? i = some p) :
    ∃ st v p₀, m.statements[i]? = some st ∧ parts.low i = some v ∧
      (parts.placed[i]?).join = some p₀ ∧
      p = steadyPlacement st (parts.offsets.getD i 0) ((parts.schedule m).period i) parts.start p₀ := by
  simp only [Parts.schedule, Phase.placement?, phaseOf] at h
  rw [join_map_range] at h
  split at h
  · simp only [Option.bind_eq_bind, Option.pure_def] at h
    obtain ⟨st, hst, h⟩ := Option.bind_eq_some_iff.mp h
    obtain ⟨v, hv, h⟩ := Option.bind_eq_some_iff.mp h
    obtain ⟨p₀, hp₀, h⟩ := Option.bind_eq_some_iff.mp h
    exact ⟨st, v, p₀, hst, hv, hp₀, (Option.some.inj h).symm⟩
  · cases h

private theorem late_of_low (hst : m.statements[i]? = some st) {v : Int} (hlow : parts.low i = some v)
    {p₀ : Placement} (hp₀ : (parts.placed[i]?).join = some p₀) :
    (parts.schedule m).steady.placement? i =
      some (steadyPlacement st (parts.offsets.getD i 0) ((parts.schedule m).period i) parts.start p₀) := by
  have hi := (List.getElem?_eq_some_iff.mp hst).1
  simp only [Parts.schedule, Phase.placement?, phaseOf]
  rw [join_map_range, if_pos hi, hst, hp₀, show (parts.lows[i]?).join = some v from hlow]
  rfl

private theorem isSteady_iff (h : parts.Found m options) (hm : m.Proper) (i : Nat) :
    (parts.schedule m).isSteady i = (parts.low i).isSome := by
  cases hlow : parts.low i with
  | none =>
    rw [isSteady, Phase.isPresent]
    cases hp : (parts.schedule m).steady.placement? i with
    | none => rfl
    | some p =>
      obtain ⟨st, v, p₀, -, hv, -⟩ := late_cases hp
      rw [hlow] at hv
      cases hv
  | some v =>
    obtain ⟨st, hst⟩ := h.statement_of_low hlow
    obtain ⟨p₀, flow, hp₀, -⟩ := h.placed_of_low hm hst hlow
    rw [isSteady, Phase.isPresent, late_of_low hst hlow hp₀]
    rfl

private theorem flow_schedule (hst : m.statements[i]? = some st) :
    (parts.schedule m).flow i = st.flow.getD 0 := by
  simp [flow, Parts.schedule, List.getElem?_map, hst]

private theorem period_schedule (hst : m.statements[i]? = some st) :
    (parts.schedule m).period i = (parts.rates.lookup st.array).getD 0 := by
  simp [period, Parts.schedule, List.getD_eq_getElem?_getD, hst]

private theorem getElem?_domains (h : parts.Found m options) (hm : m.Proper)
    (hst : m.statements[i]? = some st) :
    (parts.domains m)[i]? = some ((parts.schedule m).earlyDomain st i) := by
  obtain ⟨delays, sequence, hplaced⟩ := h.placed_placed
  have hi := (List.getElem?_eq_some_iff.mp hst).1
  have hlength : parts.offsets.length = m.statements.length := by
    rw [← (Outcome.forall₂_of_mapM h.offsets).length_eq, List.length_zip, List.length_zip,
      h.length_lows, hplaced.length, ← (Outcome.forall₂_of_mapM h.scales).length_eq]
    simp
  have hoffset : parts.offsets[i]? = some (parts.offsets.getD i 0) := by
    rw [List.getD_eq_getElem?_getD, List.getElem?_eq_getElem (by omega)]
    rfl
  have hzip : (m.statements.zip (parts.lows.zip parts.offsets))[i]? =
      some (st, parts.low i, parts.offsets.getD i 0) := by
    rw [List.getElem?_zip_eq_some, List.getElem?_zip_eq_some]
    exact ⟨hst, h.getElem?_lows hst, hoffset⟩
  rw [Parts.domains, prologueDomains, List.getElem?_map, hzip, Option.map_some, earlyDomain,
    isSteady_iff h hm, flow_schedule hst]
  rfl

private theorem placedEarly_placed (h : parts.Found m options) : ∃ grouped delays sequence,
    Placed m (parts.selection m options.whole) parts.scales options.optimize grouped parts.placedEarly
      delays sequence := by
  have hyields := h.placedEarly
  rw [Parts.selection]
  split at hyields
  · rename_i hwhole
    obtain ⟨delays, sequence, hplaced⟩ := h.placed_placed
    rw [← Stage.yields_pure hyields, if_pos hwhole]
    rw [Parts.chosen, if_pos hwhole] at hplaced
    exact ⟨true, delays, sequence, hplaced⟩
  · rename_i hwhole
    rw [if_neg hwhole]
    refine ⟨false, place_placed (List.nodup_range.filter _) (fun i hi => ?_) hyields⟩
    exact List.mem_range.mp (List.mem_of_mem_filter hi)

private theorem nodup_selection : (parts.selection m options.whole).chosen.Nodup := by
  unfold Parts.selection
  split
  · exact List.nodup_range
  · exact List.nodup_range.filter _

private theorem lt_of_mem_selection :
    ∀ i ∈ (parts.selection m options.whole).chosen, i < m.statements.length := by
  intro i hi
  unfold Parts.selection at hi
  split at hi
  · exact List.mem_range.mp hi
  · exact List.mem_range.mp (List.mem_of_mem_filter hi)

private theorem mem_selection (whole : Bool) (hi : i ∈ parts.early m) :
    i ∈ (parts.selection m whole).chosen := by
  unfold Parts.selection
  split
  · exact List.mem_of_mem_filter hi
  · exact hi

private theorem early_cases {p : Placement} (h : (parts.schedule m).prologue.placement? i = some p) :
    ∃ p₀ domain, i ∈ parts.early m ∧ (parts.placedEarly[i]?).join = some p₀ ∧
      (parts.domains m)[i]? = some domain ∧ p = { p₀ with domain } := by
  simp only [Parts.schedule, Phase.placement?] at h
  rw [join_map_range] at h
  split at h
  · simp only [Option.bind_eq_bind, Option.pure_def] at h
    obtain ⟨p₀, hp₀, h⟩ := Option.bind_eq_some_iff.mp h
    split at h
    · rename_i hearly
      obtain ⟨domain, hdomain, h⟩ := Option.bind_eq_some_iff.mp h
      exact ⟨p₀, domain, by simpa using hearly, hp₀, hdomain, (Option.some.inj h).symm⟩
    · cases h
  · cases h

private theorem early_of_mem (hi : i ∈ parts.early m) {p₀ : Placement}
    (hp₀ : (parts.placedEarly[i]?).join = some p₀) {domain : PointSet}
    (hdomain : (parts.domains m)[i]? = some domain) :
    (parts.schedule m).prologue.placement? i = some { p₀ with domain } := by
  have hrange := List.mem_range.mp (List.mem_of_mem_filter hi)
  simp only [Parts.schedule, Phase.placement?]
  rw [join_map_range, if_pos hrange, hp₀]
  simp [hi, hdomain]

/-! ### Domains -/

private theorem over_bound {n flow : Nat} {index : Int} :
    Over n [.lt (.var n flow) (.constant n index)] := by
  intro c hc
  obtain rfl := List.mem_singleton.mp hc
  simp

theorem solves_before {flow : Nat} (hflow : flow < st.dims) {index : Int} {x : Nat → Int} :
    Solves x (before st flow index).cons ↔ Solves x st.domain.cons ∧ x flow < index := by
  rw [before, PointSet.solves_constrain, System.solves_cons, Constraint.admits_lt (by simp),
    Affine.valueAt_var hflow]
  simp

theorem solves_firstPeriod {flow : Nat} (hflow : flow < st.dims) {offset period : Int}
    {x : Nat → Int} :
    Solves x (firstPeriod st flow offset period).cons ↔
      Solves x st.domain.cons ∧ offset ≤ x flow ∧ x flow < offset + period := by
  rw [firstPeriod, PointSet.solves_constrain, System.solves_cons, System.solves_cons,
    Constraint.admits_le (by simp), Constraint.admits_lt (by simp), Affine.valueAt_var hflow]
  simp

theorem regular_firstPeriod (hst : st.domain.Regular) (flow : Nat) (offset period : Int) :
    (firstPeriod st flow offset period).Regular := by
  refine PointSet.regular_constrain hst fun c hc => ?_
  rcases List.mem_cons.mp hc with rfl | hc
  · simp [Statement.dims]
  · obtain rfl := List.mem_singleton.mp hc
    simp [Statement.dims]

@[simp] theorem dims_earlyDomain (s : Schedule) : (s.earlyDomain st i).dims = st.dims := by
  unfold earlyDomain
  split <;> rfl

@[simp] theorem locals_earlyDomain (s : Schedule) : (s.earlyDomain st i).locals = st.domain.locals := by
  unfold earlyDomain
  split <;> rfl

theorem regular_earlyDomain (s : Schedule) (hst : st.domain.Regular) :
    (s.earlyDomain st i).Regular := by
  unfold earlyDomain
  split
  · exact PointSet.regular_constrain hst over_bound
  · exact hst

/-! ### Consistency -/

private theorem dims_selection (h : parts.Found m options) (hm : m.Proper)
    (hst : m.statements[i]? = some st) :
    ((parts.selection m options.whole).domain st i).dims = st.dims := by
  unfold Parts.selection
  split
  · rfl
  · simp [Selection.domain, getElem?_domains h hm hst]

private theorem placedEarly_of_mem (h : parts.Found m options) (hm : m.Proper)
    (hst : m.statements[i]? = some st) (hi : i ∈ parts.early m) :
    ∃ p₀, (parts.placedEarly[i]?).join = some p₀ ∧ 0 < p₀.scale ∧ p₀.dims = st.dims ∧
      ∀ c, p₀.carrier = some c → c < st.dims := by
  obtain ⟨grouped, delays, sequence, hplaced⟩ := placedEarly_placed h
  obtain ⟨k, hk⟩ := List.getElem?_of_mem (mem_selection options.whole hi)
  have hentry := getElem?_entries parts.scales options.optimize grouped lt_of_mem_selection hk hst
  refine ⟨_, hplaced.chosen i k st hk hst, ?_, dims_selection h hm hst, ?_⟩
  · change 0 < if st.isInfinite then parts.scales.getD i 1 else 1
    split
    · exact h.scale_pos i
    · exact one_pos
  · rw [← dims_selection h hm hst]
    exact hplaced.solution.carried _ (List.mem_of_getElem? hentry)

/-- What the placement of a statement in the prologue is made of. -/
private theorem early_spec (h : parts.Found m options) (hm : m.Proper) (hst : m.statements[i]? = some st)
    {p : Placement} (hp : (parts.schedule m).prologue.placement? i = some p) :
    ∃ p₀, i ∈ parts.early m ∧ (parts.placedEarly[i]?).join = some p₀ ∧ 0 < p₀.scale ∧
      p₀.dims = st.dims ∧ (∀ c, p₀.carrier = some c → c < st.dims) ∧
      p = { p₀ with domain := (parts.schedule m).earlyDomain st i } := by
  obtain ⟨p₀, domain, hi, hp₀, hdomain, rfl⟩ := early_cases hp
  obtain ⟨p₁, hp₁, hscale, hdims, hcarrier⟩ := placedEarly_of_mem h hm hst hi
  obtain rfl := Option.some.inj (hp₀.symm.trans hp₁)
  obtain rfl := Option.some.inj ((getElem?_domains h hm hst).symm.trans hdomain)
  exact ⟨p₀, hi, hp₀, hscale, hdims, hcarrier, rfl⟩

private theorem early_early (h : parts.Found m options) (hm : m.Proper) {p : Placement}
    (hp : (parts.schedule m).prologue.placement? i = some p) :
    ∃ st, m.statements[i]? = some st ∧ (parts.schedule m).Early i st p := by
  obtain ⟨-, -, hi, -⟩ := early_cases hp
  have hst := List.getElem?_eq_getElem (List.mem_range.mp (List.mem_of_mem_filter hi))
  obtain ⟨p₀, -, hp₀, hscale, hdims, hcarrier, rfl⟩ := early_spec h hm hst hp
  refine ⟨_, hst, rfl, hcarrier, hscale, ?_⟩
  have hempty : (parts.early m).isEmpty = false := by
    cases hearly : parts.early m with
    | nil => simp [hearly] at hi
    | cons => rfl
  have hmem : p₀ ∈ parts.placedEarly.filterMap id := by
    exact List.mem_filterMap.mpr ⟨some p₀, List.mem_of_getElem? (Option.join_eq_some_iff.mp hp₀), rfl⟩
  have hwidth := Placement.le_widthOf hmem
  simp only [Parts.schedule, hempty]
  rw [Placement.inner, hdims] at hwidth
  rw [Placement.inner, Placement.dims, dims_earlyDomain]
  exact hwidth

/-- The offset of a statement is its first flow index whose step belongs to the steady state. -/
private theorem offset_first (h : parts.Found m options) (hm : m.Proper) (hst : m.statements[i]? = some st)
    {v : Int} (hlow : parts.low i = some v) {p : Placement} (hp : (parts.placed[i]?).join = some p) :
    0 < p.scale ∧ parts.start ≤ p.scale * (parts.schedule m).offset i + p.delay ∧
      p.scale * ((parts.schedule m).offset i - 1) + p.delay < parts.start := by
  obtain ⟨p', _, hp', -, -, hscale, -⟩ := h.placed_of_low hm hst hlow
  obtain rfl := Option.some.inj (hp.symm.trans hp')
  have hpos : 0 < p.scale := by
    rw [hscale]
    exact h.scale_pos i
  have hoffset : (parts.schedule m).offset i = Arithmetic.ceilDiv (parts.start - p.delay) p.scale := by
    change parts.offsets.getD i 0 = _
    rw [List.getD_eq_getElem?_getD, h.offset_spec hst hlow hp, hscale]
    rfl
  obtain ⟨hceil, hceil'⟩ := Arithmetic.ceilDiv_spec (parts.start - p.delay) hpos
  rw [← hoffset] at hceil hceil'
  exact ⟨hpos, by omega, by omega⟩

/-- All statements have started, so that none starts the steady state below its lowest index. -/
private theorem low_le_offset (h : parts.Found m options) (hm : m.Proper) (hst : m.statements[i]? = some st)
    {v : Int} (hlow : parts.low i = some v) : v ≤ (parts.schedule m).offset i := by
  obtain ⟨p, _, hp, -⟩ := h.placed_of_low hm hst hlow
  obtain ⟨hpos, hfirst, -⟩ := offset_first h hm hst hlow hp
  have hstarted := h.started hlow hp
  have hle : p.scale * v ≤ p.scale * (parts.schedule m).offset i := by omega
  exact le_of_mul_le_mul_left hle hpos

/-- What the placement of a statement in the steady state is made of. -/
private theorem late_spec (h : parts.Found m options) (hm : m.Proper) (hst : m.statements[i]? = some st)
    {p : Placement} (hp : (parts.schedule m).steady.placement? i = some p) :
    ∃ v flow p₀, parts.low i = some v ∧ (parts.placed[i]?).join = some p₀ ∧
      (st.flow = some flow ∧ flow < st.dims ∧ Starts st flow v) ∧
      (p₀.carrier = some flow ∧ p₀.scale = parts.scales.getD i 1 ∧ p₀.dims = st.dims) ∧
      p = steadyPlacement st (parts.offsets.getD i 0) ((parts.schedule m).period i) parts.start p₀ := by
  obtain ⟨st', v, p₀, hst', hlow, hp₀, rfl⟩ := late_cases hp
  obtain rfl := Option.some.inj (hst.symm.trans hst')
  obtain ⟨flow, hstarts⟩ := h.starts hm hst hlow
  obtain ⟨p₁, flow', hp₁, hflow', hcarrier, hscale, hdomain⟩ := h.placed_of_low hm hst hlow
  obtain rfl := Option.some.inj (hp₀.symm.trans hp₁)
  obtain rfl := Option.some.inj (hstarts.1.symm.trans hflow')
  exact ⟨v, flow, p₀, hlow, hp₀, hstarts, ⟨hcarrier, hscale, congrArg PointSet.dims hdomain⟩, rfl⟩

private theorem late_late (h : parts.Found m options) (hm : m.Proper) {p : Placement}
    (hp : (parts.schedule m).steady.placement? i = some p) :
    ∃ st flow, m.statements[i]? = some st ∧ (parts.schedule m).Late i st flow p := by
  obtain ⟨st, -, -, hst, -⟩ := late_cases hp
  obtain ⟨v, flow, p₀, hlow, hp₀, ⟨hflow, hinside, hstarts⟩, ⟨hcarrier, hscale, -⟩, rfl⟩ :=
    late_spec h hm hst hp
  obtain ⟨rate, hrate⟩ := h.exists_rate hst hlow
  have hperiod : (parts.schedule m).period i = rate := by
    rw [period_schedule hst, hrate, Option.getD_some]
  obtain ⟨hpos, hfirst, hlast⟩ := offset_first h hm hst hlow hp₀
  have hdelay : (steadyPlacement st (parts.offsets.getD i 0) ((parts.schedule m).period i) parts.start
      p₀).delay = p₀.delay - parts.start := rfl
  have hflows : st.flow.getD 0 = flow := by rw [hflow, Option.getD_some]
  refine ⟨st, flow, hst, hflow, hinside, hcarrier, ?_, hpos, ?_, ?_, ?_, ?_, ?_, ?_⟩
  · change firstPeriod st (st.flow.getD 0) _ _ = _
    rw [hflows]
    rfl
  · rw [hperiod]
    exact (h.rate_pos hrate).1
  · rw [hperiod]
    change p₀.scale * rate = parts.rates.period
    rw [hscale]
    exact h.scale_mul_rate hst hrate
  · rw [hdelay]
    change 0 ≤ p₀.scale * (parts.schedule m).offset i + _
    omega
  · rw [hdelay]
    change p₀.scale * ((parts.schedule m).offset i - 1) + _ < 0
    omega
  · intro x hx t ht
    exact hstarts.solves_update hx (le_trans (low_le_offset h hm hst hlow) ht)
  · refine Placement.le_widthOf ?_
    simp only [Phase.placement?] at hp
    exact List.mem_filterMap.mpr ⟨_, List.mem_of_getElem? (Option.join_eq_some_iff.mp hp), rfl⟩

private theorem early_covered (h : parts.Found m options) (hm : m.Proper)
    (hst : m.statements[i]? = some st) {x : Nat → Int}
    (hx : ((parts.schedule m).earlyDomain st i).Has x) :
    i ∈ parts.early m ∧ ∃ p, (parts.schedule m).prologue.placement? i = some p := by
  obtain ⟨-, hregular, -⟩ := hm st (List.mem_of_getElem? hst)
  have hi : i ∈ parts.early m := by
    refine List.mem_filter.mpr ⟨List.mem_range.mpr (List.getElem?_eq_some_iff.mp hst).1, ?_⟩
    rw [getElem?_domains h hm hst]
    simp [PointSet.isEmpty_of_has (regular_earlyDomain _ hregular) hx]
  obtain ⟨p₀, hp₀, -⟩ := placedEarly_of_mem h hm hst hi
  exact ⟨hi, _, early_of_mem hi hp₀ (getElem?_domains h hm hst)⟩

theorem consistent_of_synthesize (hm : m.Proper) {s : Schedule}
    (h : (synthesize m options).execute.1 = .ok s) : s.Consistent m := by
  obtain ⟨parts, hfound, rfl⟩ := synthesize_cases h
  refine ⟨fun i st hst => flow_schedule hst, fun i j st st' hst hst' harray => ?_,
    fun i p hp => early_early hfound hm hp, fun i p hp => late_late hfound hm hp,
    fun i st x hst hx => (early_covered hfound hm hst hx).2, ?_, ?_⟩
  · rw [period_schedule hst, period_schedule hst', harray]
  · intro i j p q hp hq horder
    obtain ⟨p₀, _, -, hp₀, -, rfl⟩ := early_cases hp
    obtain ⟨q₀, _, -, hq₀, -, rfl⟩ := early_cases hq
    obtain ⟨grouped, delays, sequence, hplaced⟩ := placedEarly_placed hfound
    exact hplaced.eq_of_order lt_of_mem_selection hp₀ hq₀ horder
  · intro i j p q hp hq horder
    obtain ⟨_, _, p₀, -, -, hp₀, rfl⟩ := late_cases hp
    obtain ⟨_, _, q₀, -, -, hq₀, rfl⟩ := late_cases hq
    obtain ⟨delays, sequence, hplaced⟩ := hfound.placed_placed
    exact hplaced.eq_of_order Parts.Found.lt_of_mem_chosen hp₀ hq₀ horder

theorem offset_eq_of_synthesize (hm : m.Proper) {s : Schedule} (h : (synthesize m options).execute.1 = .ok s)
    {j : Nat} {st' : Statement} (hst : m.statements[i]? = some st) (hst' : m.statements[j]? = some st')
    (harray : st.array = st'.array) (hi : s.isSteady i = true) (hj : s.isSteady j = true) :
    s.offset i = s.offset j := by
  obtain ⟨parts, hfound, rfl⟩ := synthesize_cases h
  rw [isSteady_iff hfound hm, Option.isSome_iff_exists] at hi hj
  obtain ⟨v, hlow⟩ := hi
  obtain ⟨w, hlow'⟩ := hj
  exact hfound.offset_eq hm hst hst' harray hlow hlow'

/-- A statement of the steady state has a lowest flow index, and starts the steady state from there on. -/
theorem exists_low_of_synthesize (hm : m.Proper) {s : Schedule}
    (h : (synthesize m options).execute.1 = .ok s) (hi : s.isSteady i = true) :
    ∃ st flow low, m.statements[i]? = some st ∧ st.flow = some flow ∧ Starts st flow low ∧
      low ≤ s.offset i := by
  obtain ⟨parts, hfound, rfl⟩ := synthesize_cases h
  rw [isSteady_iff hfound hm, Option.isSome_iff_exists] at hi
  obtain ⟨low, hlow⟩ := hi
  obtain ⟨st, hst⟩ := hfound.statement_of_low hlow
  obtain ⟨flow, hflow, -, hstarts⟩ := hfound.starts hm hst hlow
  exact ⟨st, flow, low, hst, hflow, hstarts, low_le_offset hfound hm hst hlow⟩

/-- Only the statements of streams have a period. -/
theorem streams_of_synthesize (hm : m.Proper) {s : Schedule} (h : (synthesize m options).execute.1 = .ok s)
    (hst : m.statements[i]? = some st) (hperiod : s.period i ≠ 0) : m.Streams st.array := by
  obtain ⟨parts, hfound, rfl⟩ := synthesize_cases h
  rw [period_schedule hst] at hperiod
  cases hrate : parts.rates.lookup st.array with
  | none =>
    rw [hrate] at hperiod
    exact absurd rfl hperiod
  | some rate => exact hfound.streams_of_rate hm hrate

/-- A statement with points at any distance along its flow belongs to the steady state. -/
theorem isSteady_of_unbounded (hm : m.Proper) {s : Schedule} (h : (synthesize m options).execute.1 = .ok s)
    (hst : m.statements[i]? = some st) {flow : Nat} (hflow : st.flow = some flow)
    (hunbounded : ∀ t : Int, ∃ x : Nat → Int, Solves x st.domain.cons ∧ t < x flow) :
    s.isSteady i = true := by
  obtain ⟨parts, hfound, rfl⟩ := synthesize_cases h
  obtain ⟨hlocals, hregular, hinside⟩ := hm st (List.mem_of_getElem? hst)
  rw [isSteady_iff hfound hm]
  obtain ⟨low, hget, hlow⟩ := Outcome.getElem?_of_forall₂ (Outcome.forall₂_of_mapM hfound.lows) hst
  obtain rfl := Option.some.inj ((hfound.getElem?_lows hst).symm.trans hget)
  simp only [hflow] at hlow
  cases hsteady : parts.low i with
  | some v => rfl
  | none =>
    rw [hsteady] at hlow
    obtain ⟨upper, hbounded⟩ := bounded_of_steadyLow hregular hlocals (hinside flow hflow) hlow
    obtain ⟨x, hx, hlt⟩ := hunbounded upper
    exact absurd (hbounded x hx) (by omega)

/-! ### Dependencies -/

private theorem timeAt_with_domain (p : Placement) (domain : PointSet) (hdims : domain.dims = p.dims)
    (x : Nat → Int) : Placement.timeAt { p with domain } x = p.timeAt x := by
  simp only [Placement.timeAt, Placement.thetaAt, Placement.inner, Placement.dims, hdims]

private theorem timeAt_steadyPlacement {p : Placement} (hdims : st.dims = p.dims)
    (offset period start : Int) (x : Nat → Int) :
    (steadyPlacement st offset period start p).timeAt x =
      (p.thetaAt x - start) :: (p.order : Int) :: p.inner.map x := by
  have hinner : (steadyPlacement st offset period start p).inner = p.inner := by
    change Placement.innerOf st.dims p.carrier = Placement.innerOf p.dims p.carrier
    rw [hdims]
  rw [Placement.timeAt, hinner]
  simp only [Placement.thetaAt, steadyPlacement, Arithmetic.fit_exact]
  congr 1
  ring

private theorem restricts_selection (h : parts.Found m options) (hm : m.Proper) :
    (parts.selection m options.whole).Restricts m := by
  intro domains hdomains i st hst
  obtain ⟨-, hregular, -⟩ := hm st (List.mem_of_getElem? hst)
  unfold Parts.selection at hdomains
  split at hdomains
  · cases hdomains
  · obtain rfl := Option.some.inj hdomains
    exact ⟨_, getElem?_domains h hm hst, regular_earlyDomain _ hregular, dims_earlyDomain _⟩

private theorem has_selection (h : parts.Found m options) (hm : m.Proper)
    (hst : m.statements[i]? = some st) {x : Nat → Int}
    (hx : ((parts.schedule m).earlyDomain st i).Has x) :
    ((parts.selection m options.whole).domain st i).Has x := by
  unfold Parts.selection
  split
  · change st.domain.Has x
    unfold earlyDomain at hx
    split at hx
    · exact ((PointSet.has_constrain over_bound).mp hx).1
    · exact hx
  · rw [Selection.domain]
    simpa [getElem?_domains h hm hst] using hx

variable {d : Dependency} {producer consumer : Statement} {x y : Nat → Int} {p q : Placement}

private theorem respects_early (hfound : parts.Found m options) (hm : m.Proper) (hd : d ∈ m.dependencies)
    (hjoins : d.Joins m producer consumer) (hxy : d.relation.Links x y)
    (hx : ((parts.schedule m).earlyDomain consumer d.consumer).Has x)
    (hy : ((parts.schedule m).earlyDomain producer d.producer).Has y)
    (hq : (parts.schedule m).prologue.placement? d.producer = some q)
    (hp : (parts.schedule m).prologue.placement? d.consumer = some p) : q.timeAt y < p.timeAt x := by
  obtain ⟨q₀, hi, hq₀, -, hqdims, -, rfl⟩ := early_spec hfound hm hjoins.writes hq
  obtain ⟨p₀, hj, hp₀, -, hpdims, -, rfl⟩ := early_spec hfound hm hjoins.reads hp
  obtain ⟨grouped, delays, sequence, hplaced⟩ := placedEarly_placed hfound
  rw [timeAt_with_domain q₀ _ (by rw [dims_earlyDomain, hqdims]),
    timeAt_with_domain p₀ _ (by rw [dims_earlyDomain, hpdims])]
  exact hplaced.respects nodup_selection lt_of_mem_selection (restricts_selection hfound hm)
    hfound.scale_pos hd hjoins (mem_selection options.whole hi) (mem_selection options.whole hj) hq₀ hp₀
    hxy (has_selection hfound hm hjoins.reads hx) (has_selection hfound hm hjoins.writes hy)

private theorem respects_late (hfound : parts.Found m options) (hm : m.Proper) (hd : d ∈ m.dependencies)
    (hjoins : d.Joins m producer consumer) (hxy : d.relation.Links x y)
    (hq : (parts.schedule m).steady.placement? d.producer = some q)
    (hp : (parts.schedule m).steady.placement? d.consumer = some p) : q.timeAt y < p.timeAt x := by
  obtain ⟨v, -, q₀, hlow, hq₀, -, ⟨-, -, hqdims⟩, rfl⟩ := late_spec hfound hm hjoins.writes hq
  obtain ⟨v', -, p₀, hlow', hp₀, -, ⟨-, -, hpdims⟩, rfl⟩ := late_spec hfound hm hjoins.reads hp
  obtain ⟨delays, sequence, hplaced⟩ := hfound.placed_placed
  have hrestricts : Selection.Restricts ⟨parts.chosen m options.whole, none⟩ m := by
    intro domains hdomains
    cases hdomains
  have hlt := hplaced.respects Parts.Found.nodup_chosen Parts.Found.lt_of_mem_chosen hrestricts
    hfound.scale_pos hd hjoins (hfound.mem_chosen hlow) (hfound.mem_chosen hlow') hq₀ hp₀ hxy
    (PointSet.has_of_solves (hjoins.consumes hxy)) (PointSet.has_of_solves (hjoins.produces hxy))
  rw [timeAt_steadyPlacement hqdims.symm, timeAt_steadyPlacement hpdims.symm]
  rw [Placement.timeAt, Placement.timeAt, List.cons_lt_cons_iff] at hlt
  rw [List.cons_lt_cons_iff]
  rcases hlt with hlt | ⟨heq, hlt⟩
  · left
    omega
  · exact .inr ⟨by rw [heq], hlt⟩

private theorem respects_outside (hfound : parts.Found m options) (hm : m.Proper)
    (hd : d ∈ m.dependencies) (hjoins : d.Joins m producer consumer) (hxy : d.relation.Links x y)
    (hconsumer : (parts.schedule m).isSteady d.consumer = false)
    (hq : (parts.schedule m).steady.placement? d.producer = some q) : q.thetaAt y < 0 := by
  obtain ⟨v, flow, q₀, hlow, hq₀, ⟨-, hinside, -⟩, ⟨hcarrier, -, -⟩, rfl⟩ :=
    late_spec hfound hm hjoins.writes hq
  rw [isSteady_iff hfound hm, Option.isSome_eq_false_iff, Option.isNone_iff_eq_none] at hconsumer
  have hbefore := hfound.read_before hd hjoins hlow hconsumer hq₀ (fun c hc => by
    obtain rfl := Option.some.inj (hcarrier.symm.trans hc)
    exact hinside) hxy
  rw [Placement.thetaAt] at hbefore
  change carriedAt q₀.carrier q₀.scale y + (q₀.delay - parts.start) < 0
  omega

theorem respects_of_synthesize (hm : m.Proper) {s : Schedule}
    (h : (synthesize m options).execute.1 = .ok s) : s.Respects m := by
  obtain ⟨parts, hfound, rfl⟩ := synthesize_cases h
  refine ⟨?_, ?_, ?_⟩
  · intro d hd producer consumer hjoins x y hxy hx hy q p hq hp
    exact respects_early hfound hm hd hjoins hxy hx hy hq hp
  · intro d hd producer consumer hjoins x y hxy q p hq hp
    exact respects_late hfound hm hd hjoins hxy hq hp
  · intro d hd producer consumer hjoins x y hxy hconsumer q hq
    exact respects_outside hfound hm hd hjoins hxy hconsumer hq

end

end Schedule

end StreamLoom
