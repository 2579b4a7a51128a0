import StreamLoom.Proofs.Model.Dependency
import StreamLoom.Proofs.Schedule.Solve
import StreamLoom.Schedule.Synthesis

/-!
# Placing statements

The statements of a phase are the entries of a problem, and what a dependency relates among their
points are its edges. Solving the problem places the statements such that every dependency between
chosen points is respected.
-/

namespace StreamLoom

attribute [local instance] Arithmetic.exact

open StreamLoom.System (Solves Over)

namespace Schedule

variable {m : Model} {c : Selection} {scales : List Int} {optimize grouped : Bool}

def Selection.entry (c : Selection) (scales : List Int) (optimize grouped : Bool) (st : Statement)
    (i : Nat) : Entry :=
  entryOf optimize grouped st (c.domain st i) (scales.getD i 1)

private theorem getElem?_filterMap_statements {β : Type} (m : Model) (f : Nat → Statement → β)
    (chosen : List Nat) (hchosen : ∀ i ∈ chosen, i < m.statements.length) (k : Nat) :
    (chosen.filterMap fun i => (m.statements[i]?).map (f i))[k]? =
      (chosen[k]?).bind fun i => (m.statements[i]?).map (f i) := by
  induction chosen generalizing k with
  | nil => simp
  | cons i rest ih =>
    have hlt : i < m.statements.length := hchosen i (by simp)
    have hi : m.statements[i]? = some m.statements[i] := List.getElem?_eq_getElem hlt
    rw [List.filterMap_cons, hi, Option.map_some]
    cases k with
    | zero => simp [hi]
    | succ k => simpa using ih (fun j hj => hchosen j (by simp [hj])) k

theorem idxOf?_of_getElem? {xs : List Nat} (hnodup : xs.Nodup) {k i : Nat} (hk : xs[k]? = some i) :
    xs.idxOf? i = some k := by
  obtain ⟨hlt, rfl⟩ := List.getElem?_eq_some_iff.mp hk
  refine List.idxOf?_eq_some_iff.mpr ⟨hlt, rfl, fun j hj heq => ?_⟩
  have := (List.Nodup.getElem_inj_iff hnodup).mp heq
  omega

theorem getElem?_entries (scales : List Int) (optimize grouped : Bool)
    (hchosen : ∀ i ∈ c.chosen, i < m.statements.length) {k i : Nat}
    (hk : c.chosen[k]? = some i) {st : Statement} (hst : m.statements[i]? = some st) :
    (problemOf m c scales optimize grouped).entries[k]? =
      some (c.entry scales optimize grouped st i) := by
  have hget := getElem?_filterMap_statements m
    (fun i st => entryOf optimize grouped st (c.domain st i) (scales.getD i 1)) c.chosen hchosen k
  rw [hk, Option.bind_some, hst] at hget
  exact hget

structure Placed (m : Model) (c : Selection) (scales : List Int) (optimize grouped : Bool)
    (placed : List (Option Placement)) (delays : List Int) (sequence : List Nat) : Prop where
  solution : (problemOf m c scales optimize grouped).Solution delays sequence
  chosen : ∀ (i k : Nat) (st : Statement), c.chosen[k]? = some i → m.statements[i]? = some st →
    (placed[i]?).join =
      some (Problem.placedBy delays sequence (c.entry scales optimize grouped st i) k)
  others : ∀ i, i ∉ c.chosen → (placed[i]?).join = none
  length : placed.length = m.statements.length

theorem place_placed (hnodup : c.chosen.Nodup) (hchosen : ∀ i ∈ c.chosen, i < m.statements.length)
    {placed : List (Option Placement)} (h : (place m c scales optimize grouped).Yields placed) :
    ∃ delays sequence, Placed m c scales optimize grouped placed delays sequence := by
  simp only [place, Problem.solving] at h
  obtain ⟨placements, hplacements, h⟩ := Stage.yields_bind h
  obtain rfl := Stage.yields_pure h
  obtain ⟨placements', hsolve, hplacements⟩ := Stage.yields_bind hplacements
  obtain ⟨_, -, hpure⟩ := Stage.yields_bind hplacements
  obtain rfl := Stage.yields_pure hpure
  obtain ⟨delays, sequence, hsolution, hget⟩ := Problem.solve_cases (Stage.yields_ofExcept hsolve)
  refine ⟨delays, sequence, hsolution, fun i k st hk hst => ?_, fun i hi => ?_, by simp⟩
  · have hi := hchosen i (List.mem_of_getElem? hk)
    have hidx := idxOf?_of_getElem? hnodup hk
    rw [List.getElem?_map, List.getElem?_range hi, Option.map_some, Option.join_some, hidx,
      Option.bind_some, hget, getElem?_entries scales optimize grouped hchosen hk hst]
    rfl
  · rw [List.getElem?_map]
    cases hrange : (List.range m.statements.length)[i]? with
    | none => rfl
    | some j =>
      obtain ⟨_, rfl⟩ := List.getElem?_eq_some_iff.mp hrange
      have hnone : c.chosen.idxOf? i = none := by simpa using hi
      simp [hnone]

theorem Placed.eq_of_order {placed : List (Option Placement)} {delays : List Int} {sequence : List Nat}
    (hplaced : Placed m c scales optimize grouped placed delays sequence)
    (hchosen : ∀ i ∈ c.chosen, i < m.statements.length) {i j : Nat} {p q : Placement}
    (hp : (placed[i]?).join = some p) (hq : (placed[j]?).join = some q) (horder : p.order = q.order) :
    i = j := by
  have hplace : ∀ {i : Nat} {p : Placement}, (placed[i]?).join = some p →
      ∃ k, c.chosen[k]? = some i ∧ k ∈ sequence ∧ p.order = sequence.idxOf k := by
    intro i p hp
    have hmem : i ∈ c.chosen := by
      by_contra hnot
      rw [hplaced.others i hnot] at hp
      cases hp
    obtain ⟨k, hk⟩ := List.getElem?_of_mem hmem
    have hst := List.getElem?_eq_getElem (hchosen i hmem)
    rw [hplaced.chosen i k _ hk hst] at hp
    obtain rfl := Option.some.inj hp
    have hentry := getElem?_entries scales optimize grouped hchosen hk hst
    exact ⟨k, hk, hplaced.solution.complete k (List.getElem?_eq_some_iff.mp hentry).1, rfl⟩
  obtain ⟨k, hk, hmem, hkorder⟩ := hplace hp
  obtain ⟨l, hl, -, hlorder⟩ := hplace hq
  rw [hkorder, hlorder, List.idxOf_inj hmem] at horder
  rw [horder, hl] at hk
  exact (Option.some.inj hk).symm

/-! ### Dependencies -/

/-- Where statements are restricted, each is restricted to a set of its own points. -/
def Selection.Restricts (c : Selection) (m : Model) : Prop :=
  ∀ domains, c.domains = some domains → ∀ (i : Nat) (st : Statement), m.statements[i]? = some st →
    ∃ domain, domains[i]? = some domain ∧ domain.Regular ∧ domain.dims = st.dims

/-- A dependency between chosen points is an edge. -/
private theorem edge?_of_links {d : Dependency} {producer consumer : Statement}
    (hd : d.Joins m producer consumer) (hrestricts : c.Restricts m) (hnodup : c.chosen.Nodup)
    {k l : Nat} (hk : c.chosen[k]? = some d.producer) (hl : c.chosen[l]? = some d.consumer)
    {x y : Nat → Int} (hxy : d.relation.Links x y) (hx : (c.domain consumer d.consumer).Has x)
    (hy : (c.domain producer d.producer).Has y) :
    ∃ relation, c.edge? d = some ⟨k, l, relation⟩ ∧ relation.Links x y ∧ relation.Regular ∧
      relation.inputs = (c.domain consumer d.consumer).dims ∧
      relation.outputs = (c.domain producer d.producer).dims := by
  have hempty : ∀ {relation : Relation}, relation.Regular → relation.Links x y →
      relation.isEmpty = false := fun hregular hlinks =>
    PointSet.isEmpty_of_has (Relation.regular_pairs.mpr hregular) (Relation.links_iff_has.mp hlinks)
  have hproducer := idxOf?_of_getElem? hnodup hk
  have hconsumer := idxOf?_of_getElem? hnodup hl
  cases hdomains : c.domains with
  | none =>
    refine ⟨d.relation, ?_, hxy, hd.regular, ?_, ?_⟩
    · simp [Selection.edge?, hproducer, hconsumer, hdomains, hempty hd.regular hxy]
    · rw [hd.inputs, Selection.domain, hdomains]
      rfl
    · rw [hd.outputs, Selection.domain, hdomains]
      rfl
  | some domains =>
    obtain ⟨sink, hsink, hsinkRegular, hsinkDims⟩ := hrestricts domains hdomains _ _ hd.reads
    obtain ⟨source, hsource, hsourceRegular, hsourceDims⟩ := hrestricts domains hdomains _ _ hd.writes
    have hsinkDomain : c.domain consumer d.consumer = sink := by
      simp [Selection.domain, hdomains, hsink]
    have hsourceDomain : c.domain producer d.producer = source := by
      simp [Selection.domain, hdomains, hsource]
    rw [hsinkDomain] at hx ⊢
    rw [hsourceDomain] at hy ⊢
    have hrestricted := Relation.regular_intersectDomain (s := sink) hd.regular
    have hlinks : ((d.relation.intersectDomain sink).intersectRange source).Links x y := by
      rw [Relation.links_intersectRange hrestricted hsourceRegular (hsourceDims.trans hd.outputs.symm),
        Relation.links_intersectDomain hd.regular hsinkRegular (hsinkDims.trans hd.inputs.symm)]
      exact ⟨⟨hxy, hx⟩, hy⟩
    refine ⟨_, ?_, hlinks, Relation.regular_intersectRange, ?_, ?_⟩
    · simp [Selection.edge?, hproducer, hconsumer, hdomains, hsink, hsource,
        hempty Relation.regular_intersectRange hlinks]
    · rw [hsinkDims]
      exact hd.inputs
    · rw [hsourceDims]
      exact hd.outputs

theorem Placed.respects {placed : List (Option Placement)} {delays : List Int} {sequence : List Nat}
    (hplaced : Placed m c scales optimize grouped placed delays sequence) (hnodup : c.chosen.Nodup)
    (hchosen : ∀ i ∈ c.chosen, i < m.statements.length) (hrestricts : c.Restricts m)
    (hscales : ∀ i, 0 < scales.getD i 1) {d : Dependency} (hmem : d ∈ m.dependencies)
    {producer consumer : Statement} (hd : d.Joins m producer consumer)
    (hproducer : d.producer ∈ c.chosen) (hconsumer : d.consumer ∈ c.chosen) {q p : Placement}
    (hq : (placed[d.producer]?).join = some q) (hp : (placed[d.consumer]?).join = some p)
    {x y : Nat → Int} (hxy : d.relation.Links x y) (hx : (c.domain consumer d.consumer).Has x)
    (hy : (c.domain producer d.producer).Has y) : q.timeAt y < p.timeAt x := by
  obtain ⟨k, hk⟩ := List.getElem?_of_mem hproducer
  obtain ⟨l, hl⟩ := List.getElem?_of_mem hconsumer
  obtain rfl := Option.some.inj ((hplaced.chosen _ k producer hk hd.writes).symm.trans hq)
  obtain rfl := Option.some.inj ((hplaced.chosen _ l consumer hl hd.reads).symm.trans hp)
  obtain ⟨relation, hedge, hlinks, hregular, hinputs, houtputs⟩ :=
    edge?_of_links hd hrestricts hnodup hk hl hxy hx hy
  have hsource := getElem?_entries scales optimize grouped hchosen hk hd.writes
  have hsink := getElem?_entries scales optimize grouped hchosen hl hd.reads
  refine Problem.timeAt_lt_of_solution hplaced.solution (e := ⟨k, l, relation⟩)
    (List.mem_filterMap.mpr ⟨d, hmem, hedge⟩) ⟨hsource, hsink, hregular, hinputs, houtputs, ?_, ?_, ?_⟩
    hlinks
  · exact hplaced.solution.carried _ (List.mem_of_getElem? hsource)
  · exact hplaced.solution.carried _ (List.mem_of_getElem? hsink)
  · change 0 < if producer.isInfinite then scales.getD d.producer 1 else 1
    split
    · exact hscales d.producer
    · exact one_pos

end Schedule

end StreamLoom
