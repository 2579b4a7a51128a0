import StreamLoom.Proofs.Schedule.Time

/-!
# Placements keep every edge in order

A problem says nothing of where its entries come from. Whatever its relations are, the placements that it
is solved by put each point which is read before the points that read it, in the order of their rows. What
the solver compares are the times of the points, which differ in length from one entry to another. The rows
fill all of them up to one width, and this cannot turn the order of two points around: points of one entry
have times of one length, and for points of two entries the order is decided before anything was filled up.
-/

namespace StreamLoom

attribute [local instance] Arithmetic.exact

namespace Problem

/-- Every entry advances along one of its dimensions or along none, and every edge relates points of two
entries by constraints over their coordinates and its locals. -/
structure WellFormed (p : Problem) : Prop where
  entries : ∀ e ∈ p.entries, 1 ≤ e.scale ∧ ∀ c, e.carrier = some c → c < e.domain.dims
  edges : ∀ e ∈ p.edges, e.relation.Regular ∧ ∃ source sink, p.entries[e.producer]? = some source ∧
    p.entries[e.consumer]? = some sink ∧ e.relation.inputs = sink.domain.dims ∧
    e.relation.outputs = source.domain.dims

/-- The rows of a placement at a point, as many as the longest time of some placements has. -/
def rowsAt (placements : List Placement) (q : Placement) (x : List Int) : List Int :=
  (q.rows (Placement.widthOf placements)).map (·.eval x)

structure Realized (p : Problem) (placements : List Placement) : Prop where
  /-- Each entry is placed as it is. -/
  placed : ∀ i : Nat, (placements[i]?).map (fun q => (q.domain, q.carrier, q.scale)) =
    (p.entries[i]?).map fun e => (e.domain, e.carrier, e.scale)
  ordered : ∀ e ∈ p.edges, ∀ x y, e.relation.Relates x y → ∃ source sink,
    placements[e.producer]? = some source ∧ placements[e.consumer]? = some sink ∧
      rowsAt placements source y < rowsAt placements sink x
  grouped : ∀ (i j : Nat) (e f : Entry) (group : Nat) (q r : Placement), p.entries[i]? = some e →
    p.entries[j]? = some f → e.group = some group → f.group = some group →
      placements[i]? = some q → placements[j]? = some r → q.delay = r.delay
  width : ∀ q ∈ placements,
    (q.rows (Placement.widthOf placements)).length = Placement.widthOf placements
  distinct : ∀ (i j : Nat) (q r : Placement), placements[i]? = some q → placements[j]? = some r →
    q.order = r.order → i = j

variable {p : Problem} {placements : List Placement}

/-- The rows at a point are its time, filled up to the common width. -/
private theorem rowsAt_eq {q : Placement} (hq : q ∈ placements)
    (hcarrier : ∀ c, q.carrier = some c → c < q.dims) (x : List Int) :
    rowsAt placements q x = q.timeAt (valuation x) ++
      List.replicate (Placement.widthOf placements - (q.timeAt (valuation x)).length) 0 := by
  have hwidth := Placement.le_widthOf hq
  have hlength : (q.timeAt (valuation x)).length = 2 + q.inner.length := by
    simp only [Placement.timeAt, List.length_cons, List.length_map]
    omega
  rw [hlength, ← Nat.sub_sub, ← Placement.map_rows hcarrier hwidth]
  exact List.map_congr_left fun row _ => Affine.eval_eq_valueAt row x

/-- Placements that put a point before another one do so in their rows as well. -/
private theorem rowsAt_lt {q r : Placement} (hq : q ∈ placements) (hr : r ∈ placements)
    (hcarrier : ∀ c, q.carrier = some c → c < q.dims) (hcarrier' : ∀ c, r.carrier = some c → c < r.dims)
    (hsame : q.order = r.order → q = r) {x y : List Int}
    (hlt : q.timeAt (valuation y) < r.timeAt (valuation x)) :
    rowsAt placements q y < rowsAt placements r x := by
  rw [rowsAt_eq hq hcarrier, rowsAt_eq hr hcarrier']
  have hinner : (q.order : Int) = r.order →
      (q.inner.map (valuation y)).length = (r.inner.map (valuation x)).length := by
    intro horder
    rw [hsame (by exact_mod_cast horder), List.length_map, List.length_map]
  exact (Schedule.filled_up_lt_iff (a := [q.thetaAt (valuation y)]) (b := [r.thetaAt (valuation x)]) rfl
    hinner _).mpr hlt

/-- A problem that is solved is realized by its placements. -/
theorem realized_of_solve (hp : p.WellFormed) (h : p.solve = .ok placements) :
    p.Realized placements := by
  obtain ⟨delays, sequence, hsolution, hplacements⟩ := solve_cases h
  have hentry : ∀ {i : Nat} {q : Placement}, placements[i]? = some q →
      ∃ e, p.entries[i]? = some e ∧ q = placedBy delays sequence e i := by
    intro i q hq
    rw [hplacements, Option.map_eq_some_iff] at hq
    obtain ⟨e, he, rfl⟩ := hq
    exact ⟨e, he, rfl⟩
  have hcarrier : ∀ {q : Placement}, q ∈ placements → ∀ c, q.carrier = some c → c < q.dims := by
    intro q hq
    obtain ⟨i, hi⟩ := List.getElem?_of_mem hq
    obtain ⟨e, he, rfl⟩ := hentry hi
    exact (hp.entries e (List.mem_of_getElem? he)).2
  have hdistinct : ∀ (i j : Nat) (q r : Placement), placements[i]? = some q → placements[j]? = some r →
      q.order = r.order → i = j := by
    intro i j q r hq hr horder
    obtain ⟨e, he, rfl⟩ := hentry hq
    obtain ⟨f, hf, rfl⟩ := hentry hr
    have hi := hsolution.complete i (List.getElem?_eq_some_iff.mp he).1
    exact (List.idxOf_inj hi).mp horder
  refine ⟨fun i => ?_, ?_, ?_, fun q hq => Placement.length_rows (Placement.le_widthOf hq), hdistinct⟩
  · rw [hplacements, Option.map_map]
    rfl
  · intro e he x y hxy
    obtain ⟨hregular, source, sink, hsource, hsink, hinputs, houtputs⟩ := hp.edges e he
    have hfits : p.Fits e source sink :=
      ⟨hsource, hsink, hregular, hinputs, houtputs, (hp.entries source (List.mem_of_getElem? hsource)).2,
        (hp.entries sink (List.mem_of_getElem? hsink)).2,
        (hp.entries source (List.mem_of_getElem? hsource)).1⟩
    obtain ⟨-, -, hlinks⟩ := (Relation.relates_iff hregular).mp hxy
    have hproducer : placements[e.producer]? = some (placedBy delays sequence source e.producer) := by
      rw [hplacements, hsource, Option.map_some]
    have hconsumer : placements[e.consumer]? = some (placedBy delays sequence sink e.consumer) := by
      rw [hplacements, hsink, Option.map_some]
    have hmem := List.mem_of_getElem? hproducer
    have hmem' := List.mem_of_getElem? hconsumer
    refine ⟨_, _, hproducer, hconsumer, rowsAt_lt hmem hmem' (hcarrier hmem) (hcarrier hmem') ?_
      (timeAt_lt_of_solution hsolution he hfits hlinks)⟩
    intro horder
    have hself := hdistinct _ _ _ _ hproducer hconsumer horder
    rw [hself] at hproducer ⊢
    exact Option.some.inj (hproducer.symm.trans hconsumer)
  · intro i j e f group q r he hf hegroup hfgroup hq hr
    rw [hplacements, he] at hq
    rw [hplacements, hf] at hr
    cases hq
    cases hr
    exact hsolution.delay_eq he hf hegroup hfgroup

/-- An entry that reads the point before, and one of the same group that reads the same point of it. -/
private def sums : Problem where
  entries := [⟨"sum", ⟨"sum", 1, 0, []⟩, some 0, 1, some 0⟩, ⟨"out", ⟨"out", 1, 0, []⟩, some 0, 1, some 0⟩]
  edges := [⟨0, 0, .ofRows "sum" 1 "sum" [(Affine.var 1 0).plus (-1)]⟩, ⟨0, 1, .identity "out" "sum" 1⟩]

/-- The point 4 of both entries executes at the same `θ`, and the one that is read goes first. -/
theorem realized_sums : ∃ placements, sums.solve = .ok placements ∧ sums.Realized placements ∧
    placements.map (rowsAt placements · [4]) = [[4, 0], [4, 1]] := by
  have hrun : (Outcome.passes sums.solve fun placements =>
      decide (placements.map (rowsAt placements · [4]) = [[4, 0], [4, 1]])) = true := by
    decide +kernel
  obtain ⟨placements, hsolve, hrun⟩ := Outcome.exists_of_passes hrun
  have hedges : ∀ e ∈ sums.edges, e.relation.Regular ∧ ∃ source sink,
      sums.entries[e.producer]? = some source ∧ sums.entries[e.consumer]? = some sink ∧
        e.relation.inputs = sink.domain.dims ∧ e.relation.outputs = source.domain.dims := by
    simp only [sums, List.forall_mem_cons, List.not_mem_nil, false_imp_iff, implies_true, and_true]
    exact ⟨⟨Relation.regular_ofRows, _, _, rfl, rfl, rfl, rfl⟩,
      Relation.regular_ofRows, _, _, rfl, rfl, rfl, rfl⟩
  exact ⟨placements, hsolve, realized_of_solve ⟨by decide, hedges⟩ hsolve, of_decide_eq_true hrun⟩

end Problem

end StreamLoom
