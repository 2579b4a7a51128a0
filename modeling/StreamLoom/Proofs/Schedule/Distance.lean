import StreamLoom.Proofs.Schedule.Direction

/-!
# Distances of dependencies

How far a write can be behind its reads is bounded once the streams are balanced, so that no edge of a
problem that synthesis poses lacks a weight. A bound could only be missing along a direction in which the
edge never ends. Such a direction is also one of the dependency, whose writes do not get ahead there, no
matter to which points the edge was restricted.
-/

namespace StreamLoom

attribute [local instance] Arithmetic.exact

open StreamLoom.System (Solves Over)

/-! ### Weights -/

namespace Problem

variable {p : Problem} {e : Edge} {source sink : Entry}

/-- The lag of a pair has no constant part. -/
private theorem flat_valueAt_lag (he : p.Fits e source sink) (dx dy : Nat → Int) :
    (p.lag e).neg.flat.valueAt (Relation.joined e.relation.inputs dx dy) =
      carriedAt source.carrier source.scale dy - carriedAt sink.carrier sink.scale dx := by
  obtain ⟨-, hvalue⟩ := lag_spec he
  have horigin : (Relation.joined e.relation.inputs (fun _ => 0) fun _ => 0) = fun _ => 0 := by
    funext i
    exact ite_self 0
  have hstill : ∀ (carrier : Option Nat) (scale : Int), carriedAt carrier scale (fun _ => 0) = 0 := by
    intro carrier scale
    cases carrier with
    | none => rfl
    | some c => exact mul_zero scale
  have hzero := hvalue (fun _ => 0) fun _ => 0
  rw [horigin, hstill, hstill, sub_zero] at hzero
  rw [Affine.flat_valueAt, Affine.valueAt_neg, Affine.valueAt_neg, hvalue, hzero]
  ring

theorem exists_weight (he : p.Fits e source sink)
    (h : ∀ dx dy, e.relation.flat.Links dx dy →
      carriedAt source.carrier source.scale dy ≤ carriedAt sink.carrier sink.scale dx) :
    ∃ w, p.weight e = .ok w := by
  have hreaches : p.reaches e = true := by
    have hinputs : e.relation.inputs ≤ e.relation.dims := Nat.le_add_right _ _
    simp only [reaches, carrierOf, he.producer, he.consumer, Bool.and_eq_true, Option.all_eq_true,
      decide_eq_true_eq]
    constructor
    · intro c hc
      rw [he.outputs]
      exact he.carried c hc
    · intro c hc
      refine lt_of_lt_of_le ?_ hinputs
      rw [he.inputs]
      exact he.carried' c hc
  have hvars : (p.lag e).neg.vars = e.relation.dims := by
    rw [Affine.vars_neg]
    exact (lag_spec he).1
  unfold weight
  rw [hreaches]
  cases hbound : e.relation.bound (p.lag e).neg with
  | none => exact ⟨none, rfl⟩
  | some interval =>
    cases hupper : interval.upper with
    | int w =>
      refine ⟨some w, ?_⟩
      simp only [hupper]
      rfl
    | negInf | posInf =>
      obtain ⟨dx, dy, hdirection, hgrows⟩ :=
        Relation.exists_direction he.regular hvars hbound (by simp [hupper])
      rw [flat_valueAt_lag he] at hgrows
      exact absurd (h dx dy hdirection) (by omega)

/-! ### Failures of a solution -/

private theorem demand_error (h : ∃ w, p.weight e = .ok w) {failure : Failure}
    (hdemand : p.demand e = .error failure) (names : List String) :
    failure ≠ .infeasible names "unbounded dependence distance" := by
  obtain ⟨w, hw⟩ := h
  unfold demand at hdemand
  rw [hw] at hdemand
  rcases Outcome.bind_eq_error hdemand with hnone | ⟨w', hsome, hdemand⟩
  · cases hnone
  · cases hsome
    split at hdemand
    · cases hdemand
    · split at hdemand
      · cases hdemand
      · split at hdemand
        · cases hdemand
          simp [infeasible]
        · cases hdemand

private theorem reason_of_disorder {inputs outputs : Nat} {ds : List Nat} {tied : PointSet} {reason : String}
    (h : disorder inputs outputs ds tied = .ok (some reason)) :
    reason = "statement reads its own result" ∨ reason = "self dependency is not causal" := by
  induction ds generalizing tied with
  | nil =>
    unfold disorder at h
    split at h
    · cases h
    · cases h
      exact .inl rfl
  | cons d rest ih =>
    unfold disorder at h
    split at h
    · cases h
    · split at h
      · cases h
      · dsimp only at h
        split at h
        · cases h
          exact .inr rfl
        · cases h
        · exact ih h

private theorem checkOrder_error {failure : Failure} (h : p.checkOrder e = .error failure)
    (names : List String) : failure ≠ .infeasible names "unbounded dependence distance" := by
  unfold checkOrder at h
  split at h
  · cases h
  · dsimp only at h
    split at h
    · cases h
    · rename_i reason hreason
      cases h
      rcases reason_of_disorder hreason with rfl | rfl
      · simp [infeasible]
      · simp [infeasible]
    · cases h
      simp

/-- Without edges that lack a weight, a problem is not left unsolved for the distance of a dependency. -/
theorem solve_error (h : ∀ e ∈ p.edges, ∃ w, p.weight e = .ok w) {failure : Failure}
    (hsolve : p.solve = .error failure) (names : List String) :
    failure ≠ .infeasible names "unbounded dependence distance" := by
  simp only [solve] at hsolve
  rcases Outcome.bind_eq_error hsolve with hdemands | ⟨demands, -, hsolve⟩
  · obtain ⟨e, he, hdemand⟩ := Outcome.exists_of_mapM_eq_error hdemands
    exact demand_error (h e he) hdemand names
  rcases Outcome.bind_eq_error hsolve with hdelays | ⟨delays, -, hsolve⟩
  · obtain ⟨entries, -, rfl⟩ := Outcome.mapError_eq_error hdelays
    simp [infeasible]
  rcases Outcome.bind_eq_error hsolve with hchecked | ⟨_, -, hsolve⟩
  · obtain ⟨demand, -, hcheck⟩ := Outcome.exists_of_forM_eq_error hchecked
    split at hcheck
    · exact checkOrder_error hcheck names
    · cases hcheck
  rcases Outcome.bind_eq_error hsolve with hsequence | ⟨sequence, -, hsolve⟩
  · obtain ⟨entries, -, rfl⟩ := Outcome.mapError_eq_error hsequence
    simp [infeasible]
  split at hsolve
  · cases hsolve
    simp
  · cases hsolve

end Problem

namespace Schedule

variable {m : Model} {options : ScheduleOptions}

/-! ### Edges -/

/-- Where statements are restricted, it is to sets of points of as many coordinates. -/
def Selection.Within (c : Selection) (m : Model) : Prop :=
  ∀ domains, c.domains = some domains → ∀ (i : Nat) (st : Statement) (domain : PointSet),
    m.statements[i]? = some st → domains[i]? = some domain → domain.Regular ∧ domain.dims = st.dims

section

variable {c : Selection} {scales : List Int} {optimize grouped : Bool} {d : Dependency} {e : Edge}
  {producer consumer st : Statement} {i : Nat}

private theorem dims_domain (hwithin : c.Within m) (hst : m.statements[i]? = some st) :
    (c.domain st i).dims = st.dims := by
  unfold Selection.domain
  cases hdomains : c.domains with
  | none => rfl
  | some domains =>
    rw [Option.bind_some]
    cases hdomain : domains[i]? with
    | none => rfl
    | some domain => exact (hwithin domains hdomains i st domain hst hdomain).2

private theorem carrier_lt_dims (hm : m.Proper) (hwithin : c.Within m) (hst : m.statements[i]? = some st) :
    ∀ carrier, (c.entry scales optimize grouped st i).carrier = some carrier →
      carrier < (c.entry scales optimize grouped st i).domain.dims := by
  intro carrier hcarrier
  show carrier < (c.domain st i).dims
  rw [dims_domain hwithin hst]
  change carrierOf optimize st = some carrier at hcarrier
  unfold carrierOf at hcarrier
  split at hcarrier
  · rename_i flow hflow
    cases hcarrier
    exact (hm st (List.mem_of_getElem? hst)).2.2 _ hflow
  · split at hcarrier
    · rename_i hdims
      cases hcarrier
      simpa using (Bool.and_eq_true_iff.mp hdims).2
    · cases hcarrier

/-- The relation of an edge, which has no directions that its dependency lacks. -/
private theorem edge?_cases (hwithin : c.Within m) (hjoins : d.Joins m producer consumer)
    (h : c.edge? d = some e) :
    c.chosen[e.producer]? = some d.producer ∧ c.chosen[e.consumer]? = some d.consumer ∧
      e.relation.Regular ∧ e.relation.inputs = consumer.dims ∧ e.relation.outputs = producer.dims ∧
      ∀ dx dy, e.relation.flat.Links dx dy → d.relation.flat.Links dx dy := by
  have hposition : ∀ {i k : Nat}, c.chosen.idxOf? i = some k → c.chosen[k]? = some i := by
    intro i k hk
    obtain ⟨hlt, hget, -⟩ := List.idxOf?_eq_some_iff.mp hk
    rw [List.getElem?_eq_getElem hlt, ← hget]
  unfold Selection.edge? at h
  obtain ⟨k, hk, h⟩ := Option.bind_eq_some_iff.mp h
  obtain ⟨l, hl, h⟩ := Option.bind_eq_some_iff.mp h
  dsimp only at h
  split at h
  · rename_i sink source hsink hsource
    split at h
    · cases h
    · cases h
      obtain ⟨domains, hdomains, hsink⟩ := Option.bind_eq_some_iff.mp hsink
      rw [hdomains, Option.bind_some] at hsource
      obtain ⟨hsinkRegular, hsinkDims⟩ := hwithin domains hdomains _ _ _ hjoins.reads hsink
      obtain ⟨hsourceRegular, hsourceDims⟩ := hwithin domains hdomains _ _ _ hjoins.writes hsource
      refine ⟨hposition hk, hposition hl, Relation.regular_intersectRange, hjoins.inputs, hjoins.outputs,
        fun dx dy hdirection => ?_⟩
      exact Relation.links_flat_of_restricted hjoins.regular hsinkRegular
        (hsinkDims.trans hjoins.inputs.symm) hsourceRegular (hsourceDims.trans hjoins.outputs.symm) hdirection
  · split at h
    · cases h
    · cases h
      exact ⟨hposition hk, hposition hl, hjoins.regular, hjoins.inputs, hjoins.outputs,
        fun _ _ hdirection => hdirection⟩

/-- Every edge between chosen statements has a weight. -/
theorem Scaled.exists_weight {lows : List (Option Int)} {rates : Rates Int}
    (h : Scaled m lows rates scales) (hm : m.Built)
    (hsingle : ∀ array ∈ m.arrays, Extent.Single array.extents)
    (hpairs : ∀ d ∈ m.dependencies, ∃ x y, d.relation.Relates x y)
    (hchosen : ∀ i ∈ c.chosen, i < m.statements.length) (hwithin : c.Within m)
    (he : e ∈ (problemOf m c scales optimize grouped).edges) :
    ∃ w, (problemOf m c scales optimize grouped).weight e = .ok w := by
  obtain ⟨d, hd, hedge⟩ := List.mem_filterMap.mp he
  obtain ⟨producer, consumer, hjoins⟩ := hm.joins hd
  obtain ⟨hproducer, hconsumer, hregular, hinputs, houtputs, hdirections⟩ := edge?_cases hwithin hjoins hedge
  obtain ⟨x, y, hxy⟩ := hpairs d hd
  obtain ⟨-, -, hlinks⟩ := (Relation.relates_iff hjoins.regular).mp hxy
  refine Problem.exists_weight ⟨getElem?_entries scales optimize grouped hchosen hproducer hjoins.writes,
    getElem?_entries scales optimize grouped hchosen hconsumer hjoins.reads, hregular, ?_, ?_,
    carrier_lt_dims hm.proper hwithin hjoins.writes, carrier_lt_dims hm.proper hwithin hjoins.reads, ?_⟩
    fun dx dy hdirection => ?_
  · exact hinputs.trans (dims_domain hwithin hjoins.reads).symm
  · exact houtputs.trans (dims_domain hwithin hjoins.writes).symm
  · show 0 < if producer.isInfinite then scales.getD d.producer 1 else 1
    split
    · exact scale_pos h.rated h.scaled d.producer
    · exact one_pos
  · exact h.carriedAt_le hm hsingle hd hjoins hlinks (hdirections dx dy hdirection) c optimize grouped

end

/-! ### Posed problems -/

/-- A synthesis has to solve a problem: first that of the steady state or of the whole, and then that of the
prologue, unless it has been part of the whole. -/
inductive Poses (m : Model) (options : ScheduleOptions) : Problem → Prop
  | first (parts : Parts) (hscaled : Scaled m parts.lows parts.rates parts.scales) :
      Poses m options
        (problemOf m ⟨parts.chosen m options.whole, none⟩ parts.scales options.optimize true)
  | early (parts : Parts) (hscaled : Scaled m parts.lows parts.rates parts.scales)
      (hplaced : (place m ⟨parts.chosen m options.whole, none⟩ parts.scales options.optimize true).Yields
        parts.placed)
      (hstart : startOf m parts.lows parts.placed = .ok parts.start)
      (hoffsets : offsetsOf parts.lows parts.placed parts.scales parts.start = .ok parts.offsets)
      (hwhole : options.whole = false) :
      Poses m options
        (problemOf m ⟨parts.early m, some (parts.domains m)⟩ parts.scales options.optimize false)

private theorem within_domains (hm : m.Proper) (parts : Parts) (chosen : List Nat) :
    Selection.Within ⟨chosen, some (parts.domains m)⟩ m := by
  intro domains hdomains i st domain hst hdomain
  cases hdomains
  have hregular := (hm st (List.mem_of_getElem? hst)).2.1
  rw [Parts.domains, prologueDomains, List.getElem?_map] at hdomain
  obtain ⟨⟨st', low, offset⟩, hzip, hdomain⟩ := Option.map_eq_some_iff.mp hdomain
  obtain rfl := Option.some.inj (hst.symm.trans (List.getElem?_zip_eq_some.mp hzip).1)
  dsimp only at hdomain
  split at hdomain
  · cases hdomain
    refine ⟨PointSet.regular_constrain hregular fun c hc => ?_, rfl⟩
    rw [List.mem_singleton.mp hc]
    simp [Statement.dims]
  · cases hdomain
    exact ⟨hregular, rfl⟩

theorem Poses.exists_weight {p : Problem} (h : Poses m options p) (hm : m.Built)
    (hsingle : ∀ array ∈ m.arrays, Extent.Single array.extents)
    (hpairs : ∀ d ∈ m.dependencies, ∃ x y, d.relation.Relates x y) :
    ∀ e ∈ p.edges, ∃ w, p.weight e = .ok w := by
  intro e he
  cases h with
  | first parts hscaled =>
    exact hscaled.exists_weight hm hsingle hpairs Parts.Found.lt_of_mem_chosen nofun he
  | early parts hscaled =>
    refine hscaled.exists_weight hm hsingle hpairs ?_ (within_domains hm.proper parts _) he
    intro i hi
    exact List.mem_range.mp (List.mem_of_mem_filter hi)

/-! ### Failures of a synthesis -/

private theorem steadyLows_error {failure : Failure} (h : steadyLows m = .error failure)
    (names : List String) : failure ≠ .infeasible names "unbounded dependence distance" := by
  obtain ⟨st, -, hst⟩ := Outcome.exists_of_mapM_eq_error h
  split at hst
  · simp only [steadyLow] at hst
    split at hst
    · cases hst
    · split at hst
      · cases hst
      · split at hst
        · cases hst
          simp
        · rcases Outcome.bind_eq_error hst with hvalue | ⟨_, -, hpure⟩
          · obtain ⟨fault, -, rfl⟩ := Outcome.mapError_eq_error hvalue
            simp
          · cases hpure
  · cases hst

private theorem spread_error {balances : List Balance} {rounds : Nat} {found : Rates Rat} {failure : Failure}
    (h : Balance.spread balances rounds found = .error failure) (names : List String) :
    failure ≠ .infeasible names "unbounded dependence distance" := by
  induction rounds generalizing found with
  | zero => cases h
  | succ rounds ih =>
    rw [Balance.spread] at h
    rcases Outcome.bind_eq_error h with hround | ⟨found', -, hrest⟩
    · obtain ⟨b, -, found', happly⟩ := Outcome.exists_of_foldlM_eq_error hround
      unfold Balance.apply at happly
      repeat' split at happly
      all_goals cases happly
      simp
    · exact ih hrest

private theorem ofModel_error {steady : List Bool} {failure : Failure}
    (h : Rates.ofModel m steady = .error failure) (names : List String) :
    failure ≠ .infeasible names "unbounded dependence distance" := by
  simp only [Rates.ofModel] at h
  rcases Outcome.bind_eq_error h with hbalances | ⟨balances, -, h⟩
  · obtain ⟨d, -, hbalance⟩ := Outcome.exists_of_mapM_eq_error hbalances
    unfold Rates.balance at hbalance
    repeat' split at hbalance
    all_goals cases hbalance
    all_goals simp
  rcases Outcome.bind_eq_error h with hknown | ⟨_, -, hpure⟩
  · obtain ⟨array, -, known, hconnect⟩ := Outcome.exists_of_foldlM_eq_error hknown
    unfold Rates.connect at hconnect
    split at hconnect
    · cases hconnect
    · rcases Outcome.bind_eq_error hconnect with hspread | ⟨found, -, hconnect⟩
      · exact spread_error hspread names
      · rcases Outcome.bind_eq_error hconnect with hintegral | ⟨_, -, hpure⟩
        · obtain ⟨fault, -, rfl⟩ := Outcome.mapError_eq_error hintegral
          simp
        · cases hpure
  · cases hpure

private theorem startOf_error {lows : List (Option Int)} {placed : List (Option Placement)}
    {failure : Failure} (h : startOf m lows placed = .error failure) (names : List String) :
    failure ≠ .infeasible names "unbounded dependence distance" := by
  simp only [startOf] at h
  rcases Outcome.bind_eq_error h with hreads | ⟨_, -, hpure⟩
  · obtain ⟨d, -, hread⟩ := Outcome.exists_of_mapM_eq_error hreads
    split at hread
    · unfold lastRead at hread
      dsimp only at hread
      split at hread
      · cases hread
      · cases hread
      · cases hread
        simp
    · cases hread
  · cases hpure

private theorem solve_of_place_fails {c : Selection} {scales : List Int} {optimize grouped : Bool}
    {failure : Failure} (h : (place m c scales optimize grouped).Fails failure) :
    (problemOf m c scales optimize grouped).solve = .error failure := by
  rcases Stage.fails_bind h with hsolving | ⟨_, -, hpure⟩
  · rcases Stage.fails_bind hsolving with hsolve | ⟨placements, -, hreport⟩
    · exact Stage.fails_ofExcept hsolve
    · rcases Stage.fails_bind hreport with hrecord | ⟨_, -, hpure⟩
      · exact absurd hrecord (Stage.not_fails_forM (fun _ => Stage.not_fails_debug) _)
      · exact absurd hpure Stage.not_fails_pure
  · exact absurd hpure Stage.not_fails_pure

/-- A synthesis fails for the distance of a dependency only where a problem that it poses does. -/
theorem exists_posed_of_synthesize {names : List String}
    (h : (synthesize m options).execute.1 = .error (.infeasible names "unbounded dependence distance")) :
    ∃ p, Poses m options p ∧ p.solve = .error (.infeasible names "unbounded dependence distance") := by
  have hfails := Stage.fails_of_execute h
  simp only [synthesize] at hfails
  rcases Stage.fails_bind hfails with hlows | ⟨lows, hlows, hfails⟩
  · exact absurd rfl (steadyLows_error (Stage.fails_ofExcept hlows) names)
  rcases Stage.fails_bind hfails with hrates | ⟨rates, hrates, hfails⟩
  · exact absurd rfl (ofModel_error (Stage.fails_ofExcept hrates) names)
  rcases Stage.fails_bind hfails with hscales | ⟨scales, hscales, hfails⟩
  · obtain ⟨fault, hfault⟩ := Stage.fails_ofGuarded hscales
    cases hfault
  have hscaled : Scaled m lows rates scales :=
    ⟨Stage.yields_ofExcept hlows, Stage.yields_ofExcept hrates, Stage.yields_ofGuarded hscales⟩
  rcases Stage.fails_bind hfails with hdebug | ⟨_, -, hfails⟩
  · exact absurd hdebug Stage.not_fails_debug
  rcases Stage.fails_bind hfails with hplaced | ⟨placed, hplaced, hfails⟩
  · exact ⟨_, .first ⟨lows, rates, scales, [], 0, [], []⟩ hscaled, solve_of_place_fails hplaced⟩
  rcases Stage.fails_bind hfails with hstart | ⟨start, hstart, hfails⟩
  · exact absurd rfl (startOf_error (Stage.fails_ofExcept hstart) names)
  rcases Stage.fails_bind hfails with hoffsets | ⟨offsets, hoffsets, hfails⟩
  · obtain ⟨fault, hfault⟩ := Stage.fails_ofGuarded hoffsets
    cases hfault
  rcases Stage.fails_bind hfails with hdebug | ⟨_, -, hfails⟩
  · exact absurd hdebug Stage.not_fails_debug
  split at hfails
  · rcases Stage.fails_bind hfails with hpure | ⟨_, -, hpure⟩
    · exact absurd hpure Stage.not_fails_pure
    · exact absurd hpure Stage.not_fails_pure
  · rename_i hwhole
    rcases Stage.fails_bind hfails with hplacedEarly | ⟨_, -, hpure⟩
    · exact ⟨_, .early ⟨lows, rates, scales, placed, start, offsets, []⟩ hscaled hplaced
        (Stage.yields_ofExcept hstart) (Stage.yields_ofGuarded hoffsets) (by simpa using hwhole),
        solve_of_place_fails hplacedEarly⟩
    · exact absurd hpure Stage.not_fails_pure

/-- Once the streams of a model are balanced, every edge of a problem that synthesis poses has a weight, when
each dependency relates some points. No problem is left unsolved, and no synthesis fails, for the distance of a
dependency. The reader refuses an array with two infinite extents (`Program.single_of_read`). -/
theorem distance_bounded {program : Program} (hp : program.Declares Extent.Single)
    (hm : (Model.build program).execute.1 = .ok m)
    (hpairs : ∀ d ∈ m.dependencies, ∃ x y, d.relation.Relates x y) (options : ScheduleOptions) :
    (∀ p, Poses m options p → (∀ e ∈ p.edges, ∃ w, p.weight e = .ok w) ∧
      ∀ names, p.solve ≠ .error (.infeasible names "unbounded dependence distance")) ∧
    ∀ names, (synthesize m options).execute.1 ≠
      .error (.infeasible names "unbounded dependence distance") := by
  have hbuilt := Model.built_of_build hm
  have hweights {p : Problem} (hposed : Poses m options p) : ∀ e ∈ p.edges, ∃ w, p.weight e = .ok w :=
    hposed.exists_weight hbuilt (Model.single_of_build hp hm) hpairs
  have hsolve {p : Problem} (hposed : Poses m options p) (names : List String) :
      p.solve ≠ .error (.infeasible names "unbounded dependence distance") :=
    fun hfails => Problem.solve_error (hweights hposed) hfails names rfl
  refine ⟨fun p hposed => ⟨hweights hposed, hsolve hposed⟩, fun names hfails => ?_⟩
  obtain ⟨p, hposed, hunsolved⟩ := exists_posed_of_synthesize hfails
  exact hsolve hposed names hunsolved

end Schedule

/-- A stream, and another one that leaves out every second of its elements. -/
def Program.halved : Program where
  identifiers := [
    { name := "a"
      origin := ⟨.unknown, .origin⟩
      type := .int
      declared := true
      extents := [none]
      patterns := [⟨⟨.unknown, .origin⟩, [.var "i"], none, .constant none (.int 1)⟩] },
    { name := "b"
      origin := ⟨.unknown, .origin⟩
      type := .int
      declared := true
      extents := [none]
      patterns := [⟨⟨.unknown, .origin⟩, [.var "i"], none, .element none 0 [.iterator none ⟨0, 2, 0⟩]⟩] }]

namespace Schedule

/-- The second stream reads the first one twice as fast as it goes on itself, and that has a bound. -/
theorem distance_bounded_halved : ∃ m, Program.halved.Declares Extent.Single ∧
    (Model.build .halved).execute.1 = .ok m ∧
    (∀ d ∈ m.dependencies, ∃ x y, d.relation.Relates x y) ∧
    (∃ p, Poses m {} p ∧ p.edges ≠ []) ∧
    (∀ p, Poses m {} p → (∀ e ∈ p.edges, ∃ w, p.weight e = .ok w) ∧
      ∀ names, p.solve ≠ .error (.infeasible names "unbounded dependence distance")) ∧
    ∀ names, (synthesize m {}).execute.1 ≠ .error (.infeasible names "unbounded dependence distance") := by
  have hsingle : Extent.Single [none] := by
    intro i j hi hj
    have hi' := (List.getElem?_eq_some_iff.mp hi).1
    have hj' := (List.getElem?_eq_some_iff.mp hj).1
    simp only [List.length_singleton] at hi' hj'
    omega
  have hdeclares : Program.halved.Declares Extent.Single := by
    refine ⟨nofun, fun id hid => ?_⟩
    have hextents : id.extents = [none] := by
      revert id
      decide
    rw [hextents]
    exact hsingle
  have hrun : (Outcome.passes (Model.build .halved).execute.1 fun m =>
      (m.dependencies.all fun d => decide (1 = d.relation.inputs ∧ 1 = d.relation.outputs ∧
        0 = d.relation.locals ∧ ∀ c ∈ d.relation.cons, c.holds [1, 2] = true)) &&
      Outcome.passes (steadyLows m) fun lows =>
      Outcome.passes (Rates.ofModel m (lows.map (·.isSome))) fun rates =>
      Outcome.passes (scalesOf m rates) fun scales =>
        !(problemOf m ⟨Parts.chosen ⟨lows, rates, scales, [], 0, [], []⟩ m false, none⟩ scales true
          true).edges.isEmpty) = true := by
    decide +kernel
  obtain ⟨m, hm, hrun⟩ := Outcome.exists_of_passes hrun
  obtain ⟨hrelated, hrun⟩ := (Bool.and_eq_true _ _).mp hrun
  obtain ⟨lows, hlows, hrun⟩ := Outcome.exists_of_passes hrun
  obtain ⟨rates, hrates, hrun⟩ := Outcome.exists_of_passes hrun
  obtain ⟨scales, hscales, hedges⟩ := Outcome.exists_of_passes hrun
  have hpairs : ∀ d ∈ m.dependencies, ∃ x y, d.relation.Relates x y := by
    intro d hd
    obtain ⟨hinputs, houtputs, hlocals, hholds⟩ := of_decide_eq_true (List.all_eq_true.mp hrelated d hd)
    exact ⟨[1], [2], hinputs, houtputs, [], hlocals, hholds⟩
  obtain ⟨hposed, hsynthesized⟩ := distance_bounded hdeclares hm hpairs {}
  refine ⟨m, hdeclares, hm, hpairs,
    ⟨_, .first ⟨lows, rates, scales, [], 0, [], []⟩ ⟨hlows, hrates, hscales⟩, ?_⟩, hposed, hsynthesized⟩
  simpa using hedges

end Schedule

end StreamLoom
