import Mathlib.Data.List.GetD
import StreamLoom.Proofs.Schedule.Solve

/-!
# Longest paths

The delays that are found are the weights of paths. After some rounds an entry has been delayed by the
weight of a path that ends in it, and by no less than the weight of any path of as many arcs, although a
round relaxes the arcs in place and may get further than that. A path which passes some entry twice goes
round a cycle, and where no cycle has a positive weight it can be cut short without losing weight. It then
has no more arcs than there are entries, so that the round after these finds nothing left to relax.

Hence only a cycle of positive weight keeps the rounds from coming to an end, and delays that meet the
demand of every arc are at least the weights of all paths.
-/

namespace StreamLoom

attribute [local instance] Arithmetic.exact

namespace Arc

/-! ### Paths -/

/-- Arcs that lead from one entry to another, each from the entry to which the one before it leads. -/
def Leads : Nat → List Arc → Nat → Prop
  | i, [], j => i = j
  | i, a :: path, j => a.source = i ∧ Leads a.target path j

/-- What the arcs of a path demand together. -/
def total (path : List Arc) : Int := (path.map (·.weight)).sum

structure IsCycle (arcs cycle : List Arc) : Prop where
  ne_nil : cycle ≠ []
  subset : cycle ⊆ arcs
  closed : ∃ i, Leads i cycle i

/-- Delays which start no entry before time zero, and every target late enough. -/
structure Meets (n : Nat) (arcs : List Arc) (delays : List Int) : Prop where
  length : delays.length = n
  nonneg : ∀ i, 0 ≤ delays.getD i 0
  met : ∀ a ∈ arcs, delays.getD a.source 0 + a.weight ≤ delays.getD a.target 0

@[simp] theorem total_nil : total [] = 0 := rfl

@[simp] theorem total_cons (a : Arc) (path : List Arc) : total (a :: path) = a.weight + total path := by
  simp [total]

@[simp] theorem total_append (path path' : List Arc) :
    total (path ++ path') = total path + total path' := by
  simp [total]

theorem leads_append {path path' : List Arc} {i j : Nat} :
    Leads i (path ++ path') j ↔ ∃ k, Leads i path k ∧ Leads k path' j := by
  induction path generalizing i with
  | nil => simp [Leads]
  | cons a path ih => simp [Leads, ih, and_assoc]

theorem leads_snoc {path : List Arc} {a : Arc} {i j : Nat} :
    Leads i (path ++ [a]) j ↔ Leads i path a.source ∧ a.target = j := by
  rw [leads_append]
  constructor
  · rintro ⟨k, hpath, hsource, htarget⟩
    exact ⟨hsource ▸ hpath, htarget⟩
  · rintro ⟨hpath, htarget⟩
    exact ⟨a.source, hpath, rfl, htarget⟩

theorem add_total_le {delays : List Int} {path : List Arc} {i j : Nat} (hpath : Leads i path j)
    (hmet : ∀ a ∈ path, delays.getD a.source 0 + a.weight ≤ delays.getD a.target 0) :
    delays.getD i 0 + total path ≤ delays.getD j 0 := by
  induction path generalizing i with
  | nil =>
    obtain rfl : i = j := hpath
    simp
  | cons a path ih =>
    obtain ⟨rfl, hrest⟩ := hpath
    have hfirst := hmet a (by simp)
    have hlater := ih hrest fun b hb => hmet b (by simp [hb])
    rw [total_cons]
    omega

/-- A path goes round a cycle where it comes back to an entry. If no cycle is worth it, some path that
leaves no entry twice weighs as much. -/
theorem exists_simple {arcs path : List Arc} {i j : Nat} (hsubset : path ⊆ arcs)
    (hpath : Leads i path j)
    (hcycles : ∀ cycle, IsCycle arcs cycle → (cycle.map (·.source)).Nodup → total cycle ≤ 0) :
    ∃ simple, simple ⊆ arcs ∧ Leads i simple j ∧ (simple.map (·.source)).Nodup ∧
      total path ≤ total simple := by
  induction path generalizing i with
  | nil => exact ⟨[], by simp, hpath, by simp, le_rfl⟩
  | cons a path ih =>
    obtain ⟨rfl, hrest⟩ := hpath
    obtain ⟨ha, hsubset⟩ := List.cons_subset.mp hsubset
    obtain ⟨simple, hsimple, hleads, hnodup, hle⟩ := ih hsubset hrest
    by_cases hagain : a.source ∈ simple.map (·.source)
    · -- the part up to the second visit closes a cycle, the part after it is what remains
      obtain ⟨b, hb, hsource⟩ := List.mem_map.mp hagain
      obtain ⟨round, later, rfl⟩ := List.append_of_mem hb
      obtain ⟨k, hround, hk, hlater⟩ := leads_append.mp hleads
      rw [List.map_append, List.nodup_append] at hnodup
      obtain ⟨hroundNodup, hlaterNodup, hdisjoint⟩ := hnodup
      have hclosed : Leads a.source (a :: round) a.source := ⟨rfl, by rwa [← hsource, hk]⟩
      have hcycle : IsCycle arcs (a :: round) :=
        ⟨by simp, List.cons_subset.mpr ⟨ha, fun c hc => hsimple (by simp [hc])⟩, _, hclosed⟩
      have hnew : a.source ∉ round.map (·.source) := fun hmem =>
        hdisjoint _ hmem _ (by simp) hsource.symm
      have hweight := hcycles _ hcycle (List.nodup_cons.mpr ⟨hnew, hroundNodup⟩)
      refine ⟨b :: later, fun c hc => hsimple (List.mem_append_right _ hc), ?_, hlaterNodup, ?_⟩
      · exact ⟨hsource, hlater⟩
      · rw [total_cons] at hweight ⊢
        rw [total_append] at hle
        omega
    · refine ⟨a :: simple, List.cons_subset.mpr ⟨ha, hsimple⟩, ⟨rfl, hleads⟩,
        List.nodup_cons.mpr ⟨hagain, hnodup⟩, ?_⟩
      rw [total_cons, total_cons]
      omega

/-- A path that leaves no entry twice has at most as many arcs as there are entries. -/
theorem length_le_of_nodup {n : Nat} {path : List Arc} (hrange : ∀ a ∈ path, a.source < n)
    (hnodup : (path.map (·.source)).Nodup) : path.length ≤ n := by
  have hsubset : path.map (·.source) ⊆ List.range n := by
    intro i hi
    obtain ⟨a, ha, rfl⟩ := List.mem_map.mp hi
    exact List.mem_range.mpr (hrange a ha)
  simpa using (List.subperm_of_subset hnodup hsubset).length_le

/-! ### Rounds -/

/-- What is known after some rounds. Every delay is the weight of a path that ends in its entry, and no
path of as many arcs as there were rounds weighs more. -/
structure Relaxed (n : Nat) (arcs : List Arc) (rounds : Nat) (delays : List Int) : Prop where
  length : delays.length = n
  attained : ∀ j, ∃ i path, path ⊆ arcs ∧ Leads i path j ∧ total path = delays.getD j 0
  covered : ∀ i path j, path ⊆ arcs → Leads i path j → path.length ≤ rounds →
    total path ≤ delays.getD j 0

section

variable {n : Nat} {arcs : List Arc} {delays : List Int}

theorem getD_set {i : Nat} (hi : i < delays.length) (d : Int) (j : Nat) :
    (delays.set i d).getD j 0 = if j = i then d else delays.getD j 0 := by
  have hupdate := congrFun (valuation_set hi d) j
  rwa [Function.update_apply] at hupdate

/-- An arc is met already, or its target is set to the delay that it demands. -/
theorem relax_cases (delays : List Int) (changed : List Nat) (a : Arc) :
    (delays.getD a.source 0 + a.weight ≤ delays.getD a.target 0 ∧
      relax (delays, changed) a = (delays, changed)) ∨
    (delays.getD a.target 0 < delays.getD a.source 0 + a.weight ∧
      relax (delays, changed) a =
        (delays.set a.target (delays.getD a.source 0 + a.weight), changed ++ [a.target])) := by
  simp only [relax, Arithmetic.fit_exact]
  split
  · rename_i hgt
    exact .inr ⟨hgt, rfl⟩
  · rename_i hle
    exact .inl ⟨by omega, rfl⟩

/-- What setting the target of an unmet arc keeps is kept by a round. -/
theorem foldl_relax_keeps {P : List Int → Prop} (todo : List Arc) (delays : List Int) (changed : List Nat)
    (hstep : ∀ a ∈ todo, ∀ delays, P delays →
      delays.getD a.target 0 < delays.getD a.source 0 + a.weight →
        P (delays.set a.target (delays.getD a.source 0 + a.weight)))
    (h : P delays) : P (todo.foldl relax (delays, changed)).1 := by
  induction todo generalizing delays changed with
  | nil => exact h
  | cons a todo ih =>
    have hrest := fun b hb => hstep b (List.mem_cons_of_mem a hb)
    rw [List.foldl_cons]
    rcases relax_cases delays changed a with ⟨-, hsame⟩ | ⟨hlt, hset⟩
    · rw [hsame]
      exact ih _ changed hrest h
    · rw [hset]
      exact ih _ _ hrest (hstep a (by simp) delays h hlt)

/-- No entry is moved to an earlier time. -/
theorem le_foldl_relax {todo : List Arc} (changed : List Nat)
    (hrange : ∀ a ∈ todo, a.target < delays.length) (j : Nat) :
    delays.getD j 0 ≤ (todo.foldl relax (delays, changed)).1.getD j 0 := by
  have hkeeps := foldl_relax_keeps todo delays changed
    (P := fun later => later.length = delays.length ∧ delays.getD j 0 ≤ later.getD j 0) ?_ ⟨rfl, le_rfl⟩
  · exact hkeeps.2
  · rintro a ha later ⟨hlength, hle⟩ hlt
    refine ⟨by simpa using hlength, ?_⟩
    rw [getD_set (by rw [hlength]; exact hrange a ha)]
    split
    · rename_i heq
      subst heq
      omega
    · exact hle

/-- A round meets each arc from where the source was before the round. -/
theorem add_weight_le_foldl_relax {todo : List Arc} (changed : List Nat)
    (hrange : ∀ a ∈ todo, a.target < delays.length) {a : Arc} (ha : a ∈ todo) :
    delays.getD a.source 0 + a.weight ≤ (todo.foldl relax (delays, changed)).1.getD a.target 0 := by
  induction todo generalizing delays changed with
  | nil => cases ha
  | cons b todo ih =>
    have hb := hrange b (by simp)
    have hrest : ∀ c ∈ todo, c.target < delays.length := fun c hc => hrange c (by simp [hc])
    rw [List.foldl_cons]
    rcases relax_cases delays changed b with ⟨hmet, hsame⟩ | ⟨hlt, hset⟩
    · rw [hsame]
      rcases List.mem_cons.mp ha with rfl | ha
      · exact hmet.trans (le_foldl_relax changed hrest _)
      · exact ih changed hrest ha
    · rw [hset]
      have hrest' : ∀ c ∈ todo, c.target <
          (delays.set b.target (delays.getD b.source 0 + b.weight)).length := by simpa using hrest
      rcases List.mem_cons.mp ha with rfl | ha
      · refine le_trans (le_of_eq ?_) (le_foldl_relax _ hrest' _)
        rw [getD_set hb, if_pos rfl]
      · refine le_trans ?_ (ih _ hrest' ha)
        rw [getD_set hb]
        split
        · rename_i heq
          rw [heq]
          omega
        · exact le_rfl

/-- Where every demand is met there is nothing to relax. -/
theorem relaxAll_of_met
    (hmet : ∀ a ∈ arcs, delays.getD a.source 0 + a.weight ≤ delays.getD a.target 0) :
    relaxAll arcs delays = (delays, []) := by
  unfold relaxAll
  induction arcs with
  | nil => rfl
  | cons a arcs ih =>
    have hsame : relax (delays, []) a = (delays, []) := by
      rcases relax_cases delays [] a with ⟨-, hsame⟩ | ⟨hlt, -⟩
      · exact hsame
      · exact absurd (hmet a (by simp)) (by omega)
    rw [List.foldl_cons, hsame]
    exact ih fun b hb => hmet b (by simp [hb])

theorem relaxed_start (n : Nat) (arcs : List Arc) : Relaxed n arcs 0 (List.replicate n 0) := by
  have hzero : ∀ j, (List.replicate n (0 : Int)).getD j 0 = 0 :=
    List.getElem?_getD_replicate_default_eq 0 n
  refine ⟨by simp, fun j => ⟨j, [], by simp, rfl, (hzero j).symm⟩, ?_⟩
  intro i path j _ _ hlength
  obtain rfl := List.length_eq_zero_iff.mp (Nat.le_zero.mp hlength)
  rw [hzero j, total_nil]

/-- One more round covers the paths of one more arc. -/
theorem Relaxed.round {rounds : Nat} (harcs : ∀ a ∈ arcs, a.target < n)
    (h : Relaxed n arcs rounds delays) : Relaxed n arcs (rounds + 1) (relaxAll arcs delays).1 := by
  have hrange : ∀ a ∈ arcs, a.target < delays.length := fun a ha => h.length ▸ harcs a ha
  have hkept := foldl_relax_keeps arcs delays []
    (P := fun later => later.length = n ∧
      ∀ j, ∃ i path, path ⊆ arcs ∧ Leads i path j ∧ total path = later.getD j 0) ?_
    ⟨h.length, h.attained⟩
  · refine ⟨hkept.1, hkept.2, ?_⟩
    intro i path j hsubset hpath hlength
    rcases List.eq_nil_or_concat' path with rfl | ⟨before, a, rfl⟩
    · exact (h.covered i [] j hsubset hpath (by simp)).trans (le_foldl_relax [] hrange j)
    · obtain ⟨hbefore, rfl⟩ := leads_snoc.mp hpath
      have ha : a ∈ arcs := hsubset (by simp)
      have hcovered := h.covered i before a.source (fun b hb => hsubset (by simp [hb])) hbefore
        (by simpa using hlength)
      have hround := add_weight_le_foldl_relax [] hrange ha
      rw [total_append, total_cons, total_nil]
      unfold relaxAll
      omega
  · rintro a ha later ⟨hlength, hattained⟩ -
    refine ⟨by simpa using hlength, fun j => ?_⟩
    rw [getD_set (by rw [hlength]; exact harcs a ha)]
    split
    · rename_i heq
      obtain ⟨i, path, hsubset, hpath, htotal⟩ := hattained a.source
      refine ⟨i, path ++ [a], by simp [hsubset, ha], leads_snoc.mpr ⟨hpath, heq.symm⟩, ?_⟩
      simp [htotal]
    · exact hattained j

/-- The rounds end in delays, or in entries that were still to be relaxed when no round was left. -/
theorem settle_cases (left : Nat) {rounds : Nat} (harcs : ∀ a ∈ arcs, a.target < n)
    (h : Relaxed n arcs rounds delays) :
    (∃ last rounds', settle arcs left delays = .ok last ∧ Relaxed n arcs rounds' last) ∨
    ∃ changed last, settle arcs left delays = .error changed ∧ Relaxed n arcs (rounds + left) last ∧
      relaxAll arcs last ≠ (last, []) := by
  induction left generalizing rounds delays with
  | zero =>
    rw [settle]
    split
    · rename_i last hround
      have hnext := h.round harcs
      rw [hround] at hnext
      exact .inl ⟨last, _, rfl, hnext⟩
    · rename_i last changed hne hround
      refine .inr ⟨changed, delays, rfl, h, fun heq => ?_⟩
      rw [hround] at heq
      exact hne (Prod.mk.inj heq).2
  | succ left ih =>
    have hnext := h.round harcs
    rw [settle]
    split
    · rename_i last hround
      rw [hround] at hnext
      exact .inl ⟨last, _, rfl, hnext⟩
    · rename_i last changed hne hround
      rw [hround] at hnext
      rw [show rounds + (left + 1) = rounds + 1 + left by omega]
      exact ih hnext

/-- Without a cycle of positive weight, as many rounds as there are entries meet every demand. -/
theorem Relaxed.met (harcs : ∀ a ∈ arcs, a.source < n) (h : Relaxed n arcs n delays)
    (hcycles : ∀ cycle, IsCycle arcs cycle → (cycle.map (·.source)).Nodup → total cycle ≤ 0) :
    ∀ a ∈ arcs, delays.getD a.source 0 + a.weight ≤ delays.getD a.target 0 := by
  intro a ha
  obtain ⟨i, path, hsubset, hpath, htotal⟩ := h.attained a.source
  have hlonger : path ++ [a] ⊆ arcs := by simp [hsubset, ha]
  obtain ⟨simple, hsimple, hleads, hnodup, hle⟩ :=
    exists_simple hlonger (leads_snoc.mpr ⟨hpath, rfl⟩) hcycles
  have hlength := length_le_of_nodup (fun b hb => harcs b (hsimple hb)) hnodup
  have hcovered := h.covered i simple a.target hsimple hleads hlength
  rw [total_append, total_cons, total_nil] at hle
  omega

end

/-! ### Sums -/

/-- The sums that are formed while the arcs are relaxed one after another. -/
def sumsOfRound : List Arc → List Int × List Nat → List Int
  | [], _ => []
  | a :: arcs, s => (s.1.getD a.source 0 + a.weight) :: sumsOfRound arcs (relax s a)

/-- The sums that are formed in the rounds, of which one is the first and some are left. -/
def sums (arcs : List Arc) : Nat → List Int → List Int
  | 0, delays => sumsOfRound arcs (delays, [])
  | left + 1, delays => sumsOfRound arcs (delays, []) ++ sums arcs left (relaxAll arcs delays).1

section

variable {f : Int → Int} {arcs : List Arc}

theorem foldl_relax_kept {todo : List Arc} {s : List Int × List Nat}
    (h : ∀ x ∈ sumsOfRound todo s, f x = x) : todo.foldl (@relax ⟨f⟩) s = todo.foldl relax s := by
  induction todo generalizing s with
  | nil => rfl
  | cons a todo ih =>
    have hsum : f (s.1.getD a.source 0 + a.weight) = s.1.getD a.source 0 + a.weight :=
      h _ List.mem_cons_self
    have hstep : @relax ⟨f⟩ s a = relax s a := by
      simp only [relax, Arithmetic.fit_exact, hsum]
    rw [List.foldl_cons, List.foldl_cons, hstep]
    exact ih fun x hx => h x (List.mem_cons_of_mem _ hx)

/-- An arithmetic that leaves alone every sum which is formed finds the same delays. -/
theorem settle_kept {left : Nat} {delays : List Int} (h : ∀ x ∈ sums arcs left delays, f x = x) :
    @settle ⟨f⟩ arcs left delays = settle arcs left delays := by
  induction left generalizing delays with
  | zero =>
    have hround : @relaxAll ⟨f⟩ arcs delays = relaxAll arcs delays := foldl_relax_kept h
    unfold settle
    rw [hround]
  | succ left ih =>
    have hround : @relaxAll ⟨f⟩ arcs delays = relaxAll arcs delays :=
      foldl_relax_kept fun x hx => h x (List.mem_append_left _ hx)
    have hlater := ih fun x hx => h x (List.mem_append_right _ hx)
    unfold settle
    rw [hround]
    split
    · rfl
    · rename_i last changed _ heq
      rw [heq] at hlater
      exact hlater

end

/-! ### Least delays -/

/-- Only a cycle of positive weight leaves entries that cannot be delayed enough, and then there is one
which passes no entry twice. Otherwise the delays found are the least which meet the demand of every arc. On
words it is the same, as long as every sum which is formed is a word. -/
theorem longestPaths_least {n : Nat} {arcs : List Arc} (harcs : ∀ a ∈ arcs, a.source < n ∧ a.target < n) :
    ((∃ changed, longestPaths n arcs = .error changed) ↔
      ∃ cycle, IsCycle arcs cycle ∧ 0 < total cycle) ∧
    ((∃ changed, longestPaths n arcs = .error changed) →
      ∃ cycle, IsCycle arcs cycle ∧ (cycle.map (·.source)).Nodup ∧ 0 < total cycle) ∧
    (∀ delays, longestPaths n arcs = .ok delays → Meets n arcs delays ∧
      ∀ other, Meets n arcs other → ∀ i, delays.getD i 0 ≤ other.getD i 0) ∧
    ∀ f, (∀ x ∈ sums arcs n (List.replicate n 0), f x = x) →
      @longestPaths ⟨f⟩ n arcs = longestPaths n arcs := by
  have hsources : ∀ a ∈ arcs, a.source < n := fun a ha => (harcs a ha).1
  have htargets : ∀ a ∈ arcs, a.target < n := fun a ha => (harcs a ha).2
  have hcases := settle_cases n htargets (relaxed_start n arcs)
  have hsimple : (∃ changed, longestPaths n arcs = .error changed) →
      ∃ cycle, IsCycle arcs cycle ∧ (cycle.map (·.source)).Nodup ∧ 0 < total cycle := by
    rintro ⟨changed, herror⟩
    rcases hcases with ⟨last, _, hok, -⟩ | ⟨_, last, -, hrelaxed, hunmet⟩
    · cases hok.symm.trans herror
    · by_contra hnone
      rw [Nat.zero_add] at hrelaxed
      refine hunmet (relaxAll_of_met (hrelaxed.met hsources fun cycle hcycle hnodup => ?_))
      by_contra hpositive
      exact hnone ⟨cycle, hcycle, hnodup, by omega⟩
  refine ⟨⟨fun herror => ?_, ?_⟩, hsimple, ?_, fun f hf => settle_kept hf⟩
  · obtain ⟨cycle, hcycle, -, hpositive⟩ := hsimple herror
    exact ⟨cycle, hcycle, hpositive⟩
  · rintro ⟨cycle, hcycle, hpositive⟩
    cases hresult : longestPaths n arcs with
    | error changed => exact ⟨changed, rfl⟩
    | ok delays =>
      obtain ⟨i, hclosed⟩ := hcycle.closed
      have hround := add_total_le hclosed fun a ha => met_of_longestPaths hresult a (hcycle.subset ha)
      omega
  · intro delays hok
    rcases hcases with ⟨last, _, hok', hrelaxed⟩ | ⟨_, _, herror, -⟩
    · obtain rfl : delays = last := Except.ok.inj (hok.symm.trans hok')
      refine ⟨⟨hrelaxed.length, fun i => ?_, met_of_longestPaths hok⟩, ?_⟩
      · simpa using hrelaxed.covered i [] i (by simp) rfl (by simp)
      · intro other hother i
        obtain ⟨j, path, hsubset, hpath, htotal⟩ := hrelaxed.attained i
        have hle := add_total_le hpath fun a ha => hother.met a (hsubset ha)
        have hnonneg := hother.nonneg j
        omega
    · cases hok.symm.trans herror

/-- Two entries of one group tie a cycle of weight zero, and an arc backwards one of negative weight. -/
theorem longestPaths_least_group :
    let arcs : List Arc := [⟨1, 2, 0⟩, ⟨2, 1, 0⟩, ⟨0, 1, 2⟩, ⟨2, 0, -5⟩]
    (∀ a ∈ arcs, a.source < 3 ∧ a.target < 3) ∧
      @longestPaths .word64 3 arcs = .ok [0, 2, 2] ∧
      (∀ cycle, IsCycle arcs cycle → total cycle ≤ 0) ∧
      ∀ other, Meets 3 arcs other → 2 ≤ other.getD 1 0 ∧ 2 ≤ other.getD 2 0 := by
  intro arcs
  have harcs : ∀ a ∈ arcs, a.source < 3 ∧ a.target < 3 := by decide
  obtain ⟨hfails, -, hleast, hwords⟩ := longestPaths_least harcs
  have hrun : longestPaths 3 arcs = .ok [0, 2, 2] := by decide +kernel
  refine ⟨harcs, ?_, fun cycle hcycle => ?_, fun other hother => ?_⟩
  · exact (hwords Arithmetic.wrap (by decide +kernel)).trans hrun
  · by_contra hpositive
    obtain ⟨_, herror⟩ := hfails.mpr ⟨cycle, hcycle, by omega⟩
    cases hrun.symm.trans herror
  · have hle := (hleast _ hrun).2 other hother
    exact ⟨hle 1, hle 2⟩

/-- The arc backwards closes a cycle of positive weight if it demands more. -/
example : longestPaths 3 [⟨1, 2, 0⟩, ⟨2, 1, 0⟩, ⟨0, 1, 2⟩, ⟨2, 0, -1⟩] = .error [2, 0] := by
  decide +kernel

end Arc

end StreamLoom
