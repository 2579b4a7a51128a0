import Mathlib.Data.List.Nodup
import StreamLoom.Proofs.Outcome
import StreamLoom.Proofs.Relation.Membership
import StreamLoom.Schedule.Solve

/-!
# Solved problems

What a solution promises is that every edge is respected: the point which writes a value precedes the
point which reads it. Either the write is at an earlier step, or both are at the same step and then
the entries are in order or, within one entry, the points are.

The three cases are what the three parts of the solver are for. Relaxing the arcs ends in delays that
meet every demand, the sequence takes no entry before those which it is tied to, and the order within
an entry is checked one inner dimension after the other.
-/

namespace StreamLoom

attribute [local instance] Arithmetic.exact

open StreamLoom.System (Solves Over)

/-! ### Delays -/

namespace Arc

private theorem relax_changed (s : List Int × List Nat) (a : Arc) :
    (relax s a = s ∧ s.1.getD a.source 0 + a.weight ≤ s.1.getD a.target 0) ∨
      (relax s a).2 = s.2 ++ [a.target] := by
  obtain ⟨delays, changed⟩ := s
  simp only [relax, Arithmetic.fit_exact]
  split
  · exact .inr rfl
  · exact .inl ⟨rfl, by omega⟩

private theorem changed_of_foldl_relax (arcs : List Arc) (s : List Int × List Nat) :
    ∃ more, (arcs.foldl relax s).2 = s.2 ++ more := by
  induction arcs generalizing s with
  | nil => exact ⟨[], by simp⟩
  | cons a arcs ih =>
    obtain ⟨more, hmore⟩ := ih (relax s a)
    rw [List.foldl_cons, hmore]
    rcases relax_changed s a with ⟨hsame, -⟩ | hchanged
    · exact ⟨more, by rw [hsame]⟩
    · exact ⟨a.target :: more, by rw [hchanged]; simp⟩

/-- A round in which nothing changes finds every demand met. -/
private theorem met_of_foldl_relax (arcs : List Arc) (s : List Int × List Nat)
    (h : (arcs.foldl relax s).2 = s.2) :
    arcs.foldl relax s = s ∧ ∀ a ∈ arcs, s.1.getD a.source 0 + a.weight ≤ s.1.getD a.target 0 := by
  induction arcs generalizing s with
  | nil => simp
  | cons a arcs ih =>
    rw [List.foldl_cons] at h ⊢
    rcases relax_changed s a with ⟨hsame, hmet⟩ | hchanged
    · rw [hsame] at h ⊢
      obtain ⟨hrest, hall⟩ := ih s h
      refine ⟨hrest, fun b hb => ?_⟩
      rcases List.mem_cons.mp hb with rfl | hb
      · exact hmet
      · exact hall b hb
    · obtain ⟨more, hmore⟩ := changed_of_foldl_relax arcs (relax s a)
      rw [hmore, hchanged] at h
      simp at h

private theorem met_of_relaxAll {arcs : List Arc} {start delays : List Int}
    (h : relaxAll arcs start = (delays, [])) :
    ∀ a ∈ arcs, delays.getD a.source 0 + a.weight ≤ delays.getD a.target 0 := by
  have hmet := met_of_foldl_relax arcs (start, []) (by rw [← relaxAll, h])
  rw [← relaxAll, h] at hmet
  obtain rfl := congrArg Prod.fst hmet.1
  exact hmet.2

private theorem met_of_settle {arcs : List Arc} {left : Nat} {start delays : List Int}
    (h : settle arcs left start = .ok delays) :
    ∀ a ∈ arcs, delays.getD a.source 0 + a.weight ≤ delays.getD a.target 0 := by
  induction left generalizing start with
  | zero =>
    unfold settle at h
    split at h
    · rename_i hround
      cases h
      exact met_of_relaxAll hround
    · cases h
  | succ left ih =>
    unfold settle at h
    split at h
    · rename_i hround
      cases h
      exact met_of_relaxAll hround
    · exact ih h

theorem met_of_longestPaths {n : Nat} {arcs : List Arc} {delays : List Int}
    (h : longestPaths n arcs = .ok delays) :
    ∀ a ∈ arcs, delays.getD a.source 0 + a.weight ≤ delays.getD a.target 0 :=
  met_of_settle h

end Arc

/-! ### Order of entries -/

namespace Tie

/-- What is known of the entries that have been taken: each is there once, and after all that have to
precede it. -/
private structure Taken (n : Nat) (ties : List Tie) (done : List Nat) : Prop where
  nodup : done.Nodup
  range : ∀ i ∈ done, i < n
  ordered : ∀ t ∈ ties, t.consumer ∈ done →
    t.producer ∈ done ∧ done.idxOf t.producer < done.idxOf t.consumer

private theorem Taken.step {n : Nat} {ties : List Tie} {done : List Nat} (h : Taken n ties done)
    {i : Nat} (hi : (pending n done).find? (isReady ties done) = some i) :
    Taken n ties (done ++ [i]) := by
  have hpending := List.mem_of_find?_eq_some hi
  have hready := List.find?_some hi
  obtain ⟨hrange, hnew⟩ : i < n ∧ i ∉ done := by simpa [pending] using hpending
  refine ⟨?_, ?_, ?_⟩
  · rw [List.nodup_append]
    refine ⟨h.nodup, by simp, ?_⟩
    intro a ha b hb
    obtain rfl := List.mem_singleton.mp hb
    exact fun heq => hnew (heq ▸ ha)
  · intro j hj
    rcases List.mem_append.mp hj with hj | hj
    · exact h.range j hj
    · obtain rfl := List.mem_singleton.mp hj
      exact hrange
  · intro t ht hconsumer
    by_cases hold : t.consumer ∈ done
    · obtain ⟨hproducer, hlt⟩ := h.ordered t ht hold
      refine ⟨List.mem_append_left _ hproducer, ?_⟩
      rwa [List.idxOf_append_of_mem hproducer, List.idxOf_append_of_mem hold]
    · have hlast : t.consumer = i := by
        rcases List.mem_append.mp hconsumer with hmem | hmem
        · exact absurd hmem hold
        · exact List.mem_singleton.mp hmem
      have hproducer : t.producer ∈ done := by
        have htie := List.all_eq_true.mp hready t ht
        simpa [hlast] using htie
      refine ⟨List.mem_append_left _ hproducer, ?_⟩
      rw [List.idxOf_append_of_mem hproducer, List.idxOf_append_of_notMem hold, hlast]
      have := List.idxOf_lt_length_of_mem hproducer
      simp
      omega

private theorem taken_of_take {n : Nat} {ties : List Tie} (count : Nat) {done order : List Nat}
    (hdone : Taken n ties done) (h : take n ties count done = .ok order) :
    Taken n ties order ∧ order.length = done.length + count := by
  induction count generalizing done with
  | zero =>
    cases h
    exact ⟨hdone, rfl⟩
  | succ count ih =>
    rw [take] at h
    split at h
    · rename_i i hi
      obtain ⟨htaken, hlength⟩ := ih (hdone.step hi) h
      refine ⟨htaken, ?_⟩
      rw [hlength, List.length_append, List.length_singleton]
      omega
    · cases h

theorem sequence_spec {n : Nat} {ties : List Tie} {order : List Nat} (h : sequence n ties = .ok order) :
    order.Nodup ∧ (∀ i, i < n → i ∈ order) ∧
      ∀ t ∈ ties, t.consumer < n → order.idxOf t.producer < order.idxOf t.consumer := by
  have hstart : Taken n ties [] := ⟨List.nodup_nil, by simp, by simp⟩
  obtain ⟨htaken, hlength⟩ := taken_of_take n hstart h
  have hall : ∀ i, i < n → i ∈ order := by
    have hperm : order.Subperm (List.range n) :=
      List.subperm_of_subset htaken.nodup fun i hi => List.mem_range.mpr (htaken.range i hi)
    have := hperm.perm_of_length_le (by simp [hlength])
    intro i hi
    exact this.mem_iff.mpr (List.mem_range.mpr hi)
  exact ⟨htaken.nodup, hall, fun t ht hconsumer => (htaken.ordered t ht (hall _ hconsumer)).2⟩

end Tie

/-! ### Times -/

/-- What a carrier contributes to the step of a point. -/
def carriedAt (carrier : Option Nat) (scale : Int) (x : Nat → Int) : Int :=
  match carrier with
  | some c => scale * x c
  | none => 0

theorem Affine.vars_carried (n start : Nat) (carrier : Option Nat) (scale : Int) :
    (carried n start carrier scale).vars = n := by
  cases carrier <;> simp [carried]

theorem Affine.valueAt_carried {n start : Nat} {carrier : Option Nat} (scale : Int)
    (hcarrier : ∀ c, carrier = some c → start + c < n) (w : Nat → Int) :
    (carried n start carrier scale).valueAt w = carriedAt carrier scale fun i => w (start + i) := by
  cases carrier with
  | none => simp [carried, carriedAt]
  | some c =>
    have hc := hcarrier c rfl
    simp only [carried, carriedAt]
    rw [valueAt_setCoeff _ _ _ _ (by simpa using hc), coeff_constant, valueAt_constant]
    simp

namespace Placement

/-- The step of a point. -/
def thetaAt (p : Placement) (x : Nat → Int) : Int := carriedAt p.carrier p.scale x + p.delay

/-- The time of a point: its step, the order of its entry, and its inner coordinates. -/
def timeAt (p : Placement) (x : Nat → Int) : List Int :=
  p.thetaAt x :: (p.order : Int) :: p.inner.map x

end Placement

/-! ### Order within an entry -/

namespace Problem

private theorem valueAt_difference (inputs : Nat) {outputs d : Nat} (hd : d < outputs) (p : Nat → Int) :
    ((Affine.var (inputs + outputs) d).sub (.var (inputs + outputs) (inputs + d))).valueAt p =
      p d - p (inputs + d) := by
  rw [Affine.valueAt_sub (by simp), Affine.valueAt_var (by omega), Affine.valueAt_var (by omega)]

/-- Of tied pairs in which nothing is found out of order, none is out of order in the first dimension,
and those that are tied there as well are compared further. -/
private theorem disorder_cases {inputs outputs d : Nat} {rest : List Nat} {tied : PointSet}
    (hregular : tied.Regular) (hdims : tied.dims = inputs + outputs)
    (h : disorder inputs outputs (d :: rest) tied = .ok none) {p : Nat → Int} (hp : tied.Has p) :
    d < outputs ∧ (p (inputs + d) < p d ∨ p (inputs + d) ≤ p d ∧
      disorder inputs outputs rest (tied.constrain [.zero ((Affine.var (inputs + outputs) d).sub
        (.var (inputs + outputs) (inputs + d)))]) = .ok none) := by
  have hempty := PointSet.isEmpty_of_has hregular hp
  simp only [disorder, hempty] at h
  by_cases hd : d ≥ outputs
  · rw [if_neg (by simp), if_pos hd] at h
    cases h
  rw [if_neg (by simp), if_neg hd] at h
  have hd' : d < outputs := by omega
  have hvars : ((Affine.var (inputs + outputs) d).sub
      (.var (inputs + outputs) (inputs + d))).vars = tied.dims := by
    simp [hdims]
  obtain ⟨lower, hlower, hle⟩ := PointSet.minimum_of_has hregular hvars hp
  rw [valueAt_difference inputs hd' p] at hle
  rw [hlower, Option.getD_some] at h
  refine ⟨hd', ?_⟩
  split at h
  · cases h
  · rename_i hgt
    have hpos : ¬ lower ≤ .int 0 := by simp [Extended.le_def, hgt]
    left
    by_contra hnot
    exact hpos (Extended.le_trans hle (by simp; omega))
  · rename_i heq
    have hzero : .int 0 ≤ lower := by
      cases lower with
      | negInf => simp [Extended.compare] at heq
      | posInf => simp
      | int v =>
        have : v = 0 := by simpa [Extended.compare] using heq
        simp [this]
    have hnonneg : (0 : Int) ≤ p d - p (inputs + d) := by
      simpa using Extended.le_trans hzero hle
    exact .inr ⟨by omega, h⟩

/-- Tied pairs in which nothing is found out of order are in the order of the given dimensions. -/
theorem lt_of_disorder {inputs outputs : Nat} (ds : List Nat) {tied : PointSet}
    (hregular : tied.Regular) (hdims : tied.dims = inputs + outputs)
    (h : disorder inputs outputs ds tied = .ok none) {p : Nat → Int} (hp : tied.Has p) :
    (ds.map fun d => p (inputs + d)) < ds.map p := by
  induction ds generalizing tied with
  | nil =>
    have hempty := PointSet.isEmpty_of_has hregular hp
    rw [disorder, hempty] at h
    cases h
  | cons d rest ih =>
    rw [List.map_cons, List.map_cons, List.cons_lt_cons_iff]
    obtain ⟨hd, hlt | ⟨hle, hrest⟩⟩ := disorder_cases hregular hdims h hp
    · exact .inl hlt
    · rcases hle.lt_or_eq with hlt | hsame
      · exact .inl hlt
      · have hover : Over tied.dims [.zero ((Affine.var (inputs + outputs) d).sub
            (.var (inputs + outputs) (inputs + d)))] := by
          intro c hc
          obtain rfl := List.mem_singleton.mp hc
          simp [Constraint.vars, Constraint.zero, hdims]
        have hpair : Solves p [.zero ((Affine.var (inputs + outputs) d).sub
            (.var (inputs + outputs) (inputs + d)))] := by
          rw [System.solves_cons, Constraint.admits_zero, valueAt_difference inputs hd p]
          exact ⟨by omega, System.solves_nil p⟩
        refine .inr ⟨hsame, ih (PointSet.regular_constrain hregular hover) ?_ hrest
          ((PointSet.has_constrain hover).mpr ⟨hp, hpair⟩)⟩
        rw [PointSet.dims_constrain, hdims]

private theorem over_tie (m : Relation) (c : Nat) :
    Over m.pairs.dims [.equal (.var m.dims c) (.var m.dims (m.inputs + c))] := by
  intro c' hc'
  obtain rfl := List.mem_singleton.mp hc'
  change ((Affine.var _ _).sub _).vars = _
  simp [Relation.pairs]

private theorem dims_tiedPairs (carrier : Option Nat) (m : Relation) :
    (tiedPairs carrier m).dims = m.inputs + m.outputs := by
  unfold tiedPairs
  split <;> rfl

private theorem regular_tiedPairs {m : Relation} (hm : m.Regular) (carrier : Option Nat) :
    (tiedPairs carrier m).Regular := by
  have hpairs := Relation.regular_pairs.mpr hm
  unfold tiedPairs
  split
  · exact PointSet.regular_constrain hpairs (over_tie m _)
  · exact hpairs

private theorem has_tiedPairs {m : Relation} {carrier : Option Nat} {x y : Nat → Int}
    (hxy : m.Links x y)
    (htied : ∀ c, carrier = some c → c < m.inputs ∧ c < m.outputs ∧ y c = x c) :
    (tiedPairs carrier m).Has (Relation.joined m.inputs x y) := by
  have hhas := Relation.links_iff_has.mp hxy
  unfold tiedPairs
  split
  · rename_i c
    obtain ⟨hlt, hlt', hsame⟩ := htied c rfl
    refine (PointSet.has_constrain (over_tie m c)).mpr ⟨hhas, ?_⟩
    rw [System.solves_cons, Constraint.admits_equal (by simp), Affine.valueAt_var,
      Affine.valueAt_var, Relation.joined_of_lt hlt, Relation.joined_add]
    · exact ⟨hsame.symm, System.solves_nil _⟩
    · rw [Relation.dims]
      omega
    · rw [Relation.dims]
      omega
  · exact hhas

/-! ### Edges -/

structure Fits (p : Problem) (e : Edge) (source sink : Entry) : Prop where
  producer : p.entries[e.producer]? = some source
  consumer : p.entries[e.consumer]? = some sink
  regular : e.relation.Regular
  inputs : e.relation.inputs = sink.domain.dims
  outputs : e.relation.outputs = source.domain.dims
  carried : ∀ c, source.carrier = some c → c < source.domain.dims
  carried' : ∀ c, sink.carrier = some c → c < sink.domain.dims
  positive : 0 < source.scale

section

variable {p : Problem} {e : Edge} {source sink : Entry}

/-- The lag of a pair is what the step of the read has ahead of that of the write, but for the delays. -/
theorem lag_spec (he : p.Fits e source sink) :
    (p.lag e).vars = e.relation.pairs.dims ∧ ∀ x y : Nat → Int,
      (p.lag e).valueAt (Relation.joined e.relation.inputs x y) =
        carriedAt sink.carrier sink.scale x - carriedAt source.carrier source.scale y := by
  have hlag : p.lag e = (Affine.carried e.relation.dims 0 sink.carrier sink.scale).sub
      (Affine.carried e.relation.dims e.relation.inputs source.carrier source.scale) := by
    simp [lag, carrierOf, he.producer, he.consumer]
  have hsink : ∀ c, sink.carrier = some c → 0 + c < e.relation.dims := by
    intro c hc
    have := he.carried' c hc
    rw [Relation.dims, he.inputs]
    omega
  have hsource : ∀ c, source.carrier = some c → e.relation.inputs + c < e.relation.dims := by
    intro c hc
    have := he.carried c hc
    rw [Relation.dims, he.outputs]
    omega
  constructor
  · rw [hlag, Affine.vars_sub, Affine.vars_carried, Affine.vars_carried, Nat.min_self]
    rfl
  · intro x y
    rw [hlag, Affine.valueAt_sub (by rw [Affine.vars_carried, Affine.vars_carried]),
      Affine.valueAt_carried _ hsink, Affine.valueAt_carried _ hsource]
    congr 1
    · cases hc : sink.carrier with
      | none => rfl
      | some c =>
        have hlt : c < e.relation.inputs := by
          rw [he.inputs]
          exact he.carried' c hc
        simp only [carriedAt, Nat.zero_add]
        rw [Relation.joined_of_lt hlt]
    · simp only [Relation.joined_add]

/-- The weight of an edge bounds how far ahead of a write its reads can be. -/
private theorem weight_spec (he : p.Fits e source sink) {w : Option Int} (h : p.weight e = .ok w)
    {x y : Nat → Int} (hxy : e.relation.Links x y) :
    ∃ weight, w = some weight ∧
      carriedAt source.carrier source.scale y - carriedAt sink.carrier sink.scale x ≤ weight := by
  obtain ⟨hvars, hvalue⟩ := lag_spec he
  obtain ⟨interval, hbound, hcontains⟩ := PointSet.bound_of_has (Relation.regular_pairs.mpr he.regular)
    (show (p.lag e).neg.vars = e.relation.pairs.dims by rw [Affine.vars_neg, hvars])
    (Relation.links_iff_has.mp hxy)
  have hupper := (Interval.contains_iff.mp hcontains).2
  rw [Affine.valueAt_neg, hvalue] at hupper
  simp only [weight] at h
  split at h
  · cases h
  · rw [Relation.bound, hbound] at h
    simp only at h
    split at h
    · rename_i weight hweight
      cases h
      rw [hweight, Extended.int_le_int] at hupper
      exact ⟨weight, rfl, by omega⟩
    · cases h

private theorem canTie_of_tied (he : p.Fits e source sink) {delays : List Int} {x y : Nat → Int}
    (hxy : e.relation.Links x y)
    (htied : carriedAt source.carrier source.scale y + delays.getD e.producer 0 =
      carriedAt sink.carrier sink.scale x + delays.getD e.consumer 0) :
    p.canTie delays e = true := by
  obtain ⟨hvars, hvalue⟩ := lag_spec he
  obtain ⟨lower, hlower, hle⟩ := PointSet.minimum_of_has (Relation.regular_pairs.mpr he.regular)
    (show ((p.lag e).plus (delays.getD e.consumer 0 - delays.getD e.producer 0)).vars =
      e.relation.pairs.dims by rw [Affine.vars_plus, hvars])
    (Relation.links_iff_has.mp hxy)
  rw [Affine.valueAt_plus, hvalue] at hle
  simp only [canTie, Arithmetic.fit_exact, hlower]
  refine decide_eq_true (Extended.le_trans hle ?_)
  rw [Extended.int_le_int]
  simp only [Int.cast_id]
  omega

end

/-! ### Solutions -/

structure Solution (p : Problem) (delays : List Int) (sequence : List Nat) : Prop where
  carried : ∀ e ∈ p.entries, ∀ c, e.carrier = some c → c < e.domain.dims
  demanded : ∀ e ∈ p.edges, ∃ demand, p.demand e = .ok demand ∧
    (∀ arc, demand = .delay arc →
      delays.getD arc.source 0 + arc.weight ≤ delays.getD arc.target 0) ∧
    ∀ e', demand = .inOrder e' → p.checkOrder e' = .ok ()
  grouped : ∀ arc ∈ p.groupArcs, delays.getD arc.source 0 + arc.weight ≤ delays.getD arc.target 0
  nodup : sequence.Nodup
  complete : ∀ i, i < p.entries.length → i ∈ sequence
  tied : ∀ t ∈ p.ties delays, t.consumer < p.entries.length →
    sequence.idxOf t.producer < sequence.idxOf t.consumer

def placedBy (delays : List Int) (sequence : List Nat) (e : Entry) (i : Nat) : Placement :=
  ⟨e.domain, e.carrier, e.scale, delays.getD i 0, sequence.idxOf i⟩

theorem solve_cases {p : Problem} {placements : List Placement} (h : p.solve = .ok placements) :
    ∃ delays sequence, p.Solution delays sequence ∧
      ∀ i, placements[i]? = (p.entries[i]?).map fun e => placedBy delays sequence e i := by
  simp only [solve] at h
  obtain ⟨demands, hdemands, h⟩ := Outcome.bind_eq_ok h
  obtain ⟨delays, hdelays, h⟩ := Outcome.bind_eq_ok h
  obtain ⟨_, hchecked, h⟩ := Outcome.bind_eq_ok h
  obtain ⟨sequence, hsequence, h⟩ := Outcome.bind_eq_ok h
  have hmet := Arc.met_of_longestPaths (Outcome.mapError_eq_ok hdelays)
  obtain ⟨hnodup, hcomplete, htied⟩ := Tie.sequence_spec (Outcome.mapError_eq_ok hsequence)
  split at h
  · cases h
  · rename_i hcarriers
    cases h
    refine ⟨delays, sequence,
      ⟨?_, ?_, fun arc harc => hmet arc (List.mem_append_right _ harc), hnodup, hcomplete, htied⟩, ?_⟩
    · intro e he c hc
      have hall : p.entries.all (fun e => e.carrier.all (· < e.domain.dims)) = true := by
        simpa using hcarriers
      have hentry := List.all_eq_true.mp hall e he
      simpa [hc] using hentry
    · intro e he
      obtain ⟨demand, hmem, hdemand⟩ : ∃ demand ∈ demands, p.demand e = .ok demand := by
        obtain ⟨k, hk, rfl⟩ := List.mem_iff_getElem.mp he
        have hforall := Outcome.forall₂_of_mapM hdemands
        have hk' : k < demands.length := by rwa [← hforall.length_eq]
        exact ⟨demands[k], List.getElem_mem hk', hforall.get hk hk'⟩
      refine ⟨demand, hdemand, fun arc harc => ?_, fun e' he' => ?_⟩
      · apply hmet
        refine List.mem_append_left _ (List.mem_filterMap.mpr ⟨demand, hmem, ?_⟩)
        rw [harc]
      · have hone := Outcome.forM_eq_ok hchecked demand hmem
        rwa [he'] at hone
    · intro i
      simp only [List.getElem?_map, List.getElem?_zipIdx, Option.map_map]
      cases p.entries[i]? with
      | none => rfl
      | some e => simp [placedBy]

/-- An entry with one of its group before it is tied to one of these. -/
private theorem tied_of_group {p : Problem} {delays : List Int} {sequence : List Nat}
    (h : p.Solution delays sequence) {i j group : Nat} {e f : Entry} (hji : j < i)
    (he : p.entries[i]? = some e) (hf : p.entries[j]? = some f) (hegroup : e.group = some group)
    (hfgroup : f.group = some group) :
    ∃ k g, k < i ∧ p.entries[k]? = some g ∧ g.group = some group ∧ delays.getD k 0 = delays.getD i 0 := by
  have hmem : (f, j) ∈ (p.entries.take i).zipIdx.reverse := by
    rw [List.mem_reverse, List.mem_zipIdx_iff_getElem?, List.getElem?_take_of_lt hji]
    exact hf
  have hsome : (((p.entries.take i).zipIdx).reverse.find? fun entry =>
      e.group.isSome && entry.1.group == e.group).isSome = true := by
    rw [List.find?_isSome]
    exact ⟨(f, j), hmem, by simp [hegroup, hfgroup]⟩
  obtain ⟨⟨g, k⟩, hfound⟩ := Option.isSome_iff_exists.mp hsome
  have hgroup := List.find?_some hfound
  have hget := List.mem_zipIdx_iff_getElem?.mp (List.mem_reverse.mp (List.mem_of_find?_eq_some hfound))
  have hlt : k < i := by
    have hlength := (List.getElem?_eq_some_iff.mp hget).1
    rw [List.length_take] at hlength
    omega
  have harcs : ∀ arc ∈ [⟨i, k, 0⟩, ⟨k, i, 0⟩], arc ∈ p.groupArcs := by
    intro arc harc
    refine List.mem_flatMap.mpr ⟨(e, i), List.mem_zipIdx_iff_getElem?.mpr he, ?_⟩
    dsimp only
    split
    · rename_i hfound'
      obtain ⟨rfl, rfl⟩ := Prod.mk.inj (Option.some.inj (hfound'.symm.trans hfound))
      exact harc
    · rename_i hnone
      cases hnone.symm.trans hfound
  have hforth := h.grouped _ (harcs ⟨i, k, 0⟩ (by simp))
  have hback := h.grouped _ (harcs ⟨k, i, 0⟩ (by simp))
  rw [List.getElem?_take_of_lt hlt] at hget
  refine ⟨k, g, hlt, hget, by simpa [hegroup] using hgroup, ?_⟩
  simp only at hforth hback
  omega

theorem Solution.delay_eq {p : Problem} {delays : List Int} {sequence : List Nat}
    (h : p.Solution delays sequence) {i j group : Nat} {e f : Entry} (he : p.entries[i]? = some e)
    (hf : p.entries[j]? = some f) (hegroup : e.group = some group) (hfgroup : f.group = some group) :
    delays.getD i 0 = delays.getD j 0 := by
  -- All entries of the group below a bound agree, by induction on the bound.
  have hbelow : ∀ n i j e f, i < n → j < i → p.entries[i]? = some e → p.entries[j]? = some f →
      e.group = some group → f.group = some group → delays.getD i 0 = delays.getD j 0 := by
    intro n
    induction n with
    | zero => omega
    | succ n ih =>
      intro i j e f hi hji he hf hegroup hfgroup
      obtain ⟨k, g, hki, hk, hggroup, hdelay⟩ := tied_of_group h hji he hf hegroup hfgroup
      rw [← hdelay]
      rcases lt_trichotomy k j with hkj | rfl | hjk
      · exact (ih j k f g (by omega) hkj hf hk hfgroup hggroup).symm
      · rfl
      · exact ih k j g f (by omega) hjk hk hf hggroup hfgroup
  rcases lt_trichotomy i j with hij | rfl | hji
  · exact (hbelow (j + 1) j i f e (by omega) hij hf he hfgroup hegroup).symm
  · rfl
  · exact hbelow (i + 1) i j e f (by omega) hji he hf hegroup hfgroup

/-- Pairs of one entry at the same step are in the order of the inner dimensions. -/
private theorem lt_of_checkOrder {p : Problem} {e : Edge} {entry : Entry} (hfits : p.Fits e entry entry)
    (h : p.checkOrder e = .ok ()) {x y : Nat → Int} (hxy : e.relation.Links x y)
    (htied : carriedAt entry.carrier entry.scale y = carriedAt entry.carrier entry.scale x) :
    (Placement.innerOf entry.domain.dims entry.carrier).map y <
      (Placement.innerOf entry.domain.dims entry.carrier).map x := by
  simp only [checkOrder, hfits.producer] at h
  split at h
  · rename_i hdisorder
    have hhas : (tiedPairs entry.carrier e.relation).Has (Relation.joined e.relation.inputs x y) := by
      refine has_tiedPairs hxy fun c hc => ?_
      rw [hc] at htied
      have hpositive := hfits.positive
      rw [hfits.inputs, hfits.outputs]
      exact ⟨hfits.carried' c hc, hfits.carried c hc, Int.eq_of_mul_eq_mul_left (by omega) htied⟩
    have hlt := lt_of_disorder _ (regular_tiedPairs hfits.regular _) (dims_tiedPairs _ _) hdisorder hhas
    simp only [Relation.joined_add] at hlt
    have hinner : (Placement.innerOf entry.domain.dims entry.carrier).map
        (Relation.joined e.relation.inputs x y) =
        (Placement.innerOf entry.domain.dims entry.carrier).map x := by
      refine List.map_congr_left fun d hd => Relation.joined_of_lt ?_ x y
      rw [hfits.inputs]
      exact List.mem_range.mp (List.mem_of_mem_filter hd)
    rwa [hinner] at hlt
  · cases h
  · cases h

/-- In a solution every read follows the write of what is read. -/
theorem timeAt_lt_of_solution {p : Problem} {delays : List Int} {sequence : List Nat}
    (hsolution : p.Solution delays sequence) {e : Edge} (he : e ∈ p.edges) {source sink : Entry}
    (hfits : p.Fits e source sink) {x y : Nat → Int} (hxy : e.relation.Links x y) :
    (placedBy delays sequence source e.producer).timeAt y <
      (placedBy delays sequence sink e.consumer).timeAt x := by
  obtain ⟨demand, hdemand, hdelay, horder⟩ := hsolution.demanded e he
  simp only [Problem.demand] at hdemand
  obtain ⟨w, hw, hdemand⟩ := Outcome.bind_eq_ok hdemand
  obtain ⟨weight, rfl, hweight⟩ := weight_spec hfits hw hxy
  simp only [Placement.timeAt, Placement.thetaAt, placedBy, List.cons_lt_cons_iff, Int.ofNat_lt]
  by_cases hself : e.producer = e.consumer
  · obtain rfl : source = sink := by
      have hproducer := hfits.producer
      rw [hself, hfits.consumer] at hproducer
      exact (Option.some.inj hproducer).symm
    simp only [hself, ne_eq, not_true_eq_false, if_false] at hdemand ⊢
    split at hdemand
    · cases hdemand
    · rename_i hle
      rcases (show weight ≤ 0 by omega).lt_or_eq with hneg | hzero
      · left
        omega
      · rw [if_pos hzero] at hdemand
        cases hdemand
        by_cases htied : carriedAt source.carrier source.scale y = carriedAt source.carrier source.scale x
        · exact .inr ⟨by rw [htied], .inr ⟨trivial, lt_of_checkOrder hfits (horder e rfl) hxy htied⟩⟩
        · left
          omega
  · simp only [ne_eq, hself, not_false_eq_true, if_true] at hdemand
    cases hdemand
    have hmet := hdelay _ rfl
    simp only at hmet
    by_cases htied : carriedAt source.carrier source.scale y + delays.getD e.producer 0 =
        carriedAt sink.carrier sink.scale x + delays.getD e.consumer 0
    · refine .inr ⟨htied, .inl ?_⟩
      refine hsolution.tied ⟨e.producer, e.consumer⟩ ?_ (List.getElem?_eq_some_iff.mp hfits.consumer).1
      refine List.mem_map.mpr ⟨e, List.mem_filter.mpr ⟨he, ?_⟩, rfl⟩
      simp [hself, canTie_of_tied hfits hxy htied]
    · left
      omega

end Problem

end StreamLoom
