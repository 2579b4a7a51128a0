import StreamLoom.Proofs.Nest.Member

/-!
# Loops over time

The nest of a phase visits every point of the phase at its step, and visits the points of one step in
the order of their statements. Whether there is a single loop or one for each range of steps makes no
difference to this: outside of the range over which a statement is active there is nothing to visit.
-/

namespace StreamLoom.Nest

attribute [local instance] Arithmetic.exact

open StreamLoom.System (Solves Over)

/-! ### Members -/

/-- The placements of a phase can be looped over, and no two of its statements have the same place in
the order. -/
structure Looped (phase : Phase) : Prop where
  coherent : ∀ i p, phase.placement? i = some p → Coherent p
  order : ∀ i j p q, phase.placement? i = some p → phase.placement? j = some q → p.order = q.order → i = j

private theorem pairwise_present (phase : Phase) :
    (Schedule.present phase).Pairwise fun a b => a.1 ≠ b.1 := by
  have hindices : (phase.placements.zipIdx.map Prod.snd).Nodup := by
    rw [List.zipIdx_map_snd]
    exact List.nodup_range'
  refine (List.pairwise_map.mp hindices).filterMap _ ?_
  rintro ⟨p, i⟩ ⟨q, j⟩ hne a ha b hb
  obtain ⟨-, -, rfl⟩ := Option.map_eq_some_iff.mp ha
  obtain ⟨-, -, rfl⟩ := Option.map_eq_some_iff.mp hb
  exact hne

private theorem pairwise_of_forall₂ {α β : Type} {R : α → β → Prop} {S : α → α → Prop}
    {T : β → β → Prop} (hstep : ∀ a a' b b', R a b → R a' b' → S a a' → T b b') {as : List α}
    {bs : List β} (h : List.Forall₂ R as bs) (has : as.Pairwise S) : bs.Pairwise T := by
  induction h with
  | nil => exact .nil
  | @cons a b as bs hab hrest ih =>
    obtain ⟨hfirst, htail⟩ := List.pairwise_cons.mp has
    refine List.pairwise_cons.mpr ⟨fun b' hb' => ?_, ih htail⟩
    obtain ⟨a', ha', hrel⟩ := Outcome.exists_of_forall₂ hrest hb'
    exact hstep a a' b b' hab hrel (hfirst a' ha')

structure Enlists (m : Model) (phase : Phase) (ms : List Member) : Prop where
  sound : ∀ n ∈ ms, n.Sound
  placement : ∀ n ∈ ms, phase.placement? n.statement = some n.placement
  name : ∀ n ∈ ms, n.name = m.nameOf n.statement
  complete : ∀ i p (x : Nat → Int), phase.placement? i = some p → Solves x p.domain.cons →
    ∃ n ∈ ms, n.statement = i ∧ n.placement = p
  ordered : ms.Pairwise fun a b => a.placement.order < b.placement.order

/-- How a statement becomes a member. -/
private def Found (m : Model) (entry : Nat × Placement) (found : Option Member) : Prop :=
  match found with
  | some n => n.statement = entry.1 ∧ n.placement = entry.2 ∧ n.name = m.nameOf entry.1 ∧
      ∃ interval, entry.2.domain.bound entry.2.leading = some interval ∧
        interval.ends? = some (n.first, n.last)
  | none => entry.2.domain.bound entry.2.leading = none

private theorem members_cases {m : Model} {phase : Phase} {ms : List Member}
    (h : members m phase = .ok ms) :
    ∃ found, List.Forall₂ (Found m) (Schedule.present phase) found ∧
      ms = (found.filterMap id).mergeSort fun a b => a.placement.order ≤ b.placement.order := by
  unfold members at h
  obtain ⟨found, hfound, h⟩ := Outcome.bind_eq_ok h
  cases h
  refine ⟨found, (Outcome.forall₂_of_mapM hfound).imp ?_, rfl⟩
  rintro ⟨i, p⟩ o ho
  dsimp only at ho
  split at ho
  · rename_i hnone
    cases ho
    exact hnone
  · rename_i interval hbound
    split at ho
    · rename_i first last hends
      cases ho
      exact ⟨rfl, rfl, rfl, interval, hbound, hends⟩
    · cases ho

private theorem pairwise_order {ms : List Member} (hdistinct : ms.Pairwise fun a b => a.statement ≠ b.statement)
    (horder : ∀ a ∈ ms, ∀ b ∈ ms, a.placement.order = b.placement.order → a.statement = b.statement) :
    (ms.mergeSort fun a b => a.placement.order ≤ b.placement.order).Pairwise
      fun a b => a.placement.order < b.placement.order := by
  have hsorted : (ms.mergeSort fun a b => a.placement.order ≤ b.placement.order).Pairwise
      fun a b => a.placement.order ≤ b.placement.order := by
    refine (List.pairwise_mergeSort ?_ ?_ _).imp fun hle => of_decide_eq_true hle
    · intro a b c hab hbc
      simp only [decide_eq_true_eq] at *
      omega
    · intro a b
      simp only [Bool.or_eq_true, decide_eq_true_eq]
      omega
  have hdistinct' := (List.mergeSort_perm ms fun a b =>
    a.placement.order ≤ b.placement.order).symm.pairwise hdistinct Ne.symm
  refine (hsorted.and hdistinct').imp_of_mem ?_
  rintro a b ha hb ⟨hle, hne⟩
  refine lt_of_le_of_ne hle fun heq => hne ?_
  exact horder a (List.mem_mergeSort.mp ha) b (List.mem_mergeSort.mp hb) heq

theorem enlists_of_members {m : Model} {phase : Phase} (hphase : Looped phase) {ms : List Member}
    (h : members m phase = .ok ms) : Enlists m phase ms := by
  obtain ⟨found, hfound, rfl⟩ := members_cases h
  have hmem : ∀ n, n ∈ found.filterMap id → phase.placement? n.statement = some n.placement ∧
      Found m (n.statement, n.placement) (some n) := by
    intro n hn
    obtain ⟨o, ho, rfl⟩ := List.mem_filterMap.mp hn
    obtain ⟨⟨i, p⟩, hentry, hrel⟩ := Outcome.exists_of_forall₂ hfound ho
    obtain ⟨rfl, rfl, -⟩ := id hrel
    exact ⟨Schedule.mem_present_iff.mp hentry, hrel⟩
  refine ⟨?_, ?_, ?_, ?_, ?_⟩
  · intro n hn
    obtain ⟨hp, -, -, -, hactive⟩ := hmem n (List.mem_mergeSort.mp hn)
    exact ⟨hphase.coherent _ _ hp, hactive⟩
  · intro n hn
    exact (hmem n (List.mem_mergeSort.mp hn)).1
  · intro n hn
    obtain ⟨-, -, -, hname, -⟩ := hmem n (List.mem_mergeSort.mp hn)
    exact hname
  · intro i p x hp hx
    obtain ⟨k, hk⟩ := List.mem_iff_getElem?.mp (Schedule.mem_present_iff.mpr hp)
    obtain ⟨o, ho, hrel⟩ := Outcome.getElem?_of_forall₂ hfound hk
    obtain ⟨interval, hbound, -⟩ := PointSet.bound_of_has (hphase.coherent i p hp).regular
      Placement.vars_leading (PointSet.has_of_solves hx)
    cases o with
    | none =>
      rw [show p.domain.bound p.leading = none from hrel] at hbound
      cases hbound
    | some n =>
      obtain ⟨hstatement, hplacement, -⟩ := hrel
      refine ⟨n, ?_, hstatement, hplacement⟩
      rw [List.mem_mergeSort, List.mem_filterMap]
      exact ⟨some n, List.mem_of_getElem? ho, rfl⟩
  · refine pairwise_order ?_ ?_
    · refine (pairwise_of_forall₂ (T := fun o o' => ∀ a, o = some a → ∀ b, o' = some b →
        a.statement ≠ b.statement) ?_ hfound (pairwise_present phase)).filterMap _ ?_
      · rintro e e' _ _ he he' hne a rfl b rfl
        rw [he.1, he'.1]
        exact hne
      · intro o o' hne a ha b hb
        exact hne a ha b hb
    · intro a ha b hb heq
      exact hphase.order _ _ _ _ (hmem a ha).1 (hmem b hb).1 heq

/-! ### Loops over some steps -/

/-- A visit of a point that a member has at the given steps. -/
def VisitsBetween (first last : Int) (n : Member) : Visit → Prop :=
  Visits n.statement n.name n.placement.dims fun y =>
    Solves y n.placement.domain.cons ∧ first ≤ n.placement.thetaAt y ∧ n.placement.thetaAt y ≤ last

/-- A visit comes before another by the times that a phase gives to them. -/
def Precedes (phase : Phase) (v w : Visit) : Prop :=
  ∀ p q, phase.placement? v.statement = some p → phase.placement? w.statement = some q →
    p.timeAt v.at < q.timeAt w.at

namespace Enlists

variable {m : Model} {phase : Phase} {ms : List Member}

private theorem precedes (h : Enlists m phase ms) {n n' : Member} (hn : n ∈ ms) (hn' : n' ∈ ms)
    {v w : Visit} (hv : v.statement = n.statement) (hw : w.statement = n'.statement)
    (hlt : n.placement.timeAt v.at < n'.placement.timeAt w.at) : Precedes phase v w := by
  intro p q hp hq
  rw [hv, h.placement n hn] at hp
  rw [hw, h.placement n' hn'] at hq
  cases hp
  cases hq
  exact hlt

/-- Visits at different steps are in the order of the steps. -/
theorem precedes_of_steps (h : Enlists m phase ms) {n n' : Member} (hn : n ∈ ms) (hn' : n' ∈ ms)
    {first last first' last' : Int} {v w : Visit} (hv : VisitsBetween first last n v)
    (hw : VisitsBetween first' last' n' w) (hlt : last < first') : Precedes phase v w := by
  obtain ⟨y, rfl, -, -, -, hlast⟩ := hv
  obtain ⟨z, rfl, -, -, hfirst, -⟩ := hw
  refine h.precedes hn hn' rfl rfl ?_
  rw [Placement.timeAt, Placement.timeAt, List.cons_lt_cons_iff]
  exact .inl (lt_of_le_of_lt hlast (lt_of_lt_of_le hlt hfirst))

/-- At one step, members follow their order, and the points of a member its inner dimensions. -/
private theorem execute_step (h : Enlists m phase ms) {active : List Member} (hactive : active.Sublist ms)
    {first last : Int} {body : List Node} (hbody : active.mapM (memberNode · first last) = .ok body)
    {t : Int} (hfirst : first ≤ t) (hlast : t ≤ last) :
    (Node.executeAll (atStep t) body).Makes () (fun v => ∃ n ∈ active, VisitsBetween t t n v)
      (Precedes phase) := by
  have hnodes : List.Forall₂ (fun n node => (Node.execute (atStep t) node).Makes (atStep t)
      (VisitsBetween t t n) (Precedes phase)) active body := by
    have hmem := (List.forall₂_and_left active body).mpr
      ⟨fun n hn => hactive.subset hn, Outcome.forall₂_of_mapM hbody⟩
    refine hmem.imp ?_
    rintro n node ⟨hn, hnode⟩
    have hmakes := execute_memberNode (h.sound n hn) hnode hfirst hlast
    refine (hmakes.imp ?_).congr fun v => ?_
    · rintro v w ⟨y, rfl, -, -, hy⟩ ⟨z, rfl, -, -, hz⟩ hlt
      refine h.precedes hn hn rfl rfl ?_
      rw [Placement.timeAt, Placement.timeAt, List.cons_lt_cons_iff, List.cons_lt_cons_iff]
      exact .inr ⟨hy.trans hz.symm, .inr ⟨rfl, hlt⟩⟩
    · simp only [VisitsBetween, Visits, le_antisymm_iff, and_comm]
  refine Node.executeAll_nodes hnodes ((h.ordered.sublist hactive).imp_of_mem ?_)
  rintro n n' hn hn' horder v w ⟨y, rfl, -, -, hfrom, hto⟩ ⟨z, rfl, -, -, hfrom', hto'⟩
  refine h.precedes (hactive.subset hn) (hactive.subset hn') rfl rfl ?_
  rw [Placement.timeAt, Placement.timeAt, List.cons_lt_cons_iff, List.cons_lt_cons_iff]
  refine .inr ⟨le_antisymm (hto.trans hfrom') (hto'.trans hfrom), .inl ?_⟩
  exact_mod_cast horder

/-- A loop over some steps visits the points that its members have at these steps. -/
theorem execute_timeLoop (h : Enlists m phase ms) {active : List Member} (hactive : active.Sublist ms)
    {first last : Int} {body : List Node} (hbody : active.mapM (memberNode · first last) = .ok body) :
    (Node.execute [] (timeLoop first last body)).Makes []
      (fun v => ∃ n ∈ active, VisitsBetween first last n v) (Precedes phase) := by
  refine (Node.execute_loop rfl rfl (fun t hfirst hlast => h.execute_step hactive hbody hfirst hlast)
    ?_).congr fun v => ⟨?_, ?_⟩
  · rintro t u v w hlt ⟨n, hn, hv⟩ ⟨n', hn', hw⟩
    exact h.precedes_of_steps (hactive.subset hn) (hactive.subset hn') hv hw hlt
  · rintro ⟨t, hfirst, hlast, n, hn, y, hv, hlength, hy, hfrom, hto⟩
    exact ⟨n, hn, y, hv, hlength, hy, hfirst.trans hfrom, hto.trans hlast⟩
  · rintro ⟨n, hn, y, hv, hlength, hy, hfrom, hto⟩
    exact ⟨_, hfrom, hto, n, hn, y, hv, hlength, hy, le_rfl, le_rfl⟩

end Enlists

/-! ### A single loop -/

def VisitsPhase (m : Model) (phase : Phase) (v : Visit) : Prop :=
  ∃ i p, phase.placement? i = some p ∧
    Visits i (m.nameOf i) p.dims (fun y => Solves y p.domain.cons) v

namespace Enlists

variable {m : Model} {phase : Phase} {ms : List Member}

/-- All that a phase executes is executed while a member is active. -/
theorem visitsPhase_iff (h : Enlists m phase ms) (v : Visit) :
    VisitsPhase m phase v ↔ ∃ n ∈ ms, VisitsBetween n.first n.last n v := by
  constructor
  · rintro ⟨i, p, hp, y, rfl, hlength, hy⟩
    obtain ⟨n, hn, rfl, rfl⟩ := h.complete i p _ hp hy
    refine ⟨n, hn, y, ?_, hlength, hy, (h.sound n hn).thetaAt_bounds hy⟩
    rw [h.name n hn]
  · rintro ⟨n, hn, y, rfl, hlength, hy, -⟩
    refine ⟨n.statement, n.placement, h.placement n hn, y, ?_, hlength, hy⟩
    rw [h.name n hn]

end Enlists

private theorem fold_bounds (ms : List Member) (a b : Int) :
    (ms.foldl (fun x n => min x n.first) a ≤ a ∧ b ≤ ms.foldl (fun x n => max x n.last) b) ∧
      ∀ n ∈ ms, ms.foldl (fun x n => min x n.first) a ≤ n.first ∧
        n.last ≤ ms.foldl (fun x n => max x n.last) b := by
  induction ms generalizing a b with
  | nil => simp
  | cons n ms ih =>
    obtain ⟨⟨hfirst, hlast⟩, hrest⟩ := ih (min a n.first) (max b n.last)
    rw [List.foldl_cons, List.foldl_cons]
    refine ⟨by omega, fun n' hn' => ?_⟩
    rcases List.mem_cons.mp hn' with rfl | hn'
    · omega
    · exact hrest n' hn'

theorem Enlists.execute_wholeLoop {m : Model} {phase : Phase} {ms : List Member} (h : Enlists m phase ms)
    {nodes : List Node} (hnodes : wholeLoop ms = .ok nodes) :
    (Node.executeAll [] nodes).Makes () (VisitsPhase m phase) (Precedes phase) := by
  unfold wholeLoop at hnodes
  split at hnodes
  · cases hnodes
    rw [Node.executeAll]
    refine (Trace.Makes.pure () _).congr fun v => ?_
    simp [h.visitsPhase_iff v]
  · rename_i n rest
    obtain ⟨body, hbody, hnodes⟩ := Outcome.bind_eq_ok hnodes
    cases hnodes
    obtain ⟨hfold, hrest⟩ := fold_bounds rest n.first n.last
    refine (Node.executeAll_singleton (h.execute_timeLoop (List.Sublist.refl _) hbody)).congr fun v => ?_
    rw [h.visitsPhase_iff]
    refine exists_congr fun n' => and_congr_right fun hn' => ⟨?_, ?_⟩
    · rintro ⟨y, hv, hlength, hy, -⟩
      exact ⟨y, hv, hlength, hy, (h.sound n' hn').thetaAt_bounds hy⟩
    · rintro ⟨y, hv, hlength, hy, hfirst, hlast⟩
      rcases List.mem_cons.mp hn' with rfl | hn'
      · exact ⟨y, hv, hlength, hy, hfold.1.trans hfirst, hlast.trans hfold.2⟩
      · exact ⟨y, hv, hlength, hy, (hrest n' hn').1.trans hfirst, hlast.trans (hrest n' hn').2⟩

/-! ### Segments -/

theorem mem_breaks_iff {ms : List Member} {b : Int} :
    b ∈ breaks ms ↔ ∃ n ∈ ms, b = n.first ∨ b = n.last + 1 := by
  simp [breaks]

private theorem pairwise_eraseDups {bs : List Int} (h : bs.Pairwise (· ≤ ·)) :
    bs.eraseDups.Pairwise (· < ·) := by
  induction hlength : bs.length using Nat.strong_induction_on generalizing bs with
  | h length ih =>
    cases bs with
    | nil => simp
    | cons b bs =>
      obtain ⟨hfirst, hrest⟩ := List.pairwise_cons.mp h
      rw [List.eraseDups_cons, List.pairwise_cons]
      constructor
      · intro c hc
        rw [List.mem_eraseDups, List.mem_filter] at hc
        have hne : c ≠ b := by simpa using hc.2
        exact lt_of_le_of_ne (hfirst c hc.1) hne.symm
      · refine ih _ ?_ (hrest.filter _) rfl
        have hle := List.length_filter_le (fun c => !c == b) bs
        rw [← hlength, List.length_cons]
        omega

private theorem pairwise_breaks (ms : List Member) : (breaks ms).Pairwise (· < ·) := by
  refine pairwise_eraseDups ((List.pairwise_mergeSort ?_ ?_ _).imp fun hle => of_decide_eq_true hle)
  · intro a b c hab hbc
    simp only [decide_eq_true_eq] at *
    omega
  · intro a b
    simp only [Bool.or_eq_true, decide_eq_true_eq]
    omega

section

variable {bs : List Int} (h : bs.Pairwise (· < ·))

include h

/-- There is nothing between two breaks of which one follows the other. -/
private theorem consecutive {a b c : Int} (hab : (a, b) ∈ bs.zip bs.tail) (hc : c ∈ bs) :
    c ≤ a ∨ b ≤ c := by
  induction bs with
  | nil => simp at hc
  | cons d bs ih =>
    cases bs with
    | nil => simp at hab
    | cons e bs =>
      obtain ⟨hd, hrest⟩ := List.pairwise_cons.mp h
      rcases List.mem_cons.mp hab with heq | htail
      · cases heq
        rcases List.mem_cons.mp hc with rfl | hc
        · exact .inl le_rfl
        rcases List.mem_cons.mp hc with rfl | hc
        · exact .inr le_rfl
        · exact .inr ((List.pairwise_cons.mp hrest).1 c hc).le
      · rcases List.mem_cons.mp hc with rfl | hc
        · have ha : a ∈ e :: bs := (List.of_mem_zip htail).1
          exact .inl (hd a ha).le
        · exact ih hrest htail hc

private theorem pairwise_zip_tail : (bs.zip bs.tail).Pairwise fun p q => p.2 ≤ q.1 := by
  induction bs with
  | nil => simp
  | cons d bs ih =>
    cases bs with
    | nil => simp
    | cons e bs =>
      obtain ⟨-, hrest⟩ := List.pairwise_cons.mp h
      refine List.pairwise_cons.mpr ⟨?_, ih hrest⟩
      rintro ⟨a, b⟩ hab
      have ha : a ∈ e :: bs := (List.of_mem_zip hab).1
      rcases List.mem_cons.mp ha with rfl | ha
      · exact le_rfl
      · exact ((List.pairwise_cons.mp hrest).1 a ha).le

/-- A step between two breaks is in the range between two breaks of which one follows the other. -/
private theorem exists_consecutive {a b c : Int} (ha : a ∈ bs) (hb : b ∈ bs) (hle : a ≤ c) (hlt : c < b) :
    ∃ p ∈ bs.zip bs.tail, p.1 ≤ c ∧ c < p.2 := by
  induction bs generalizing a with
  | nil => simp at ha
  | cons d bs ih =>
    obtain ⟨hd, hrest⟩ := List.pairwise_cons.mp h
    have hdc : d ≤ c := by
      rcases List.mem_cons.mp ha with rfl | ha
      · exact hle
      · exact (hd a ha).le.trans hle
    have hb' : b ∈ bs := by
      rcases List.mem_cons.mp hb with rfl | hb
      · omega
      · exact hb
    cases bs with
    | nil => simp at hb'
    | cons e bs =>
      by_cases he : c < e
      · exact ⟨(d, e), by simp, hdc, he⟩
      · obtain ⟨p, hp, hbetween⟩ := ih hrest (List.mem_cons_self) hb' (not_lt.mp he)
        exact ⟨p, List.mem_cons_of_mem _ hp, hbetween⟩

end

/-- Between two breaks of which one follows the other, only the members that are active all the time
have any points. -/
private theorem Enlists.exists_active_iff {m : Model} {phase : Phase} {ms : List Member}
    (h : Enlists m phase ms) {a b : Int} (hab : (a, b) ∈ (breaks ms).zip (breaks ms).tail) (v : Visit) :
    (∃ n ∈ ms.filter fun n => n.first ≤ a && b - 1 ≤ n.last, VisitsBetween a (b - 1) n v) ↔
      ∃ n ∈ ms, VisitsBetween a (b - 1) n v := by
  refine exists_congr fun n => ⟨?_, ?_⟩
  · rintro ⟨hn, hv⟩
    exact ⟨List.mem_of_mem_filter hn, hv⟩
  · rintro ⟨hn, y, hv, hlength, hy, hfrom, hto⟩
    obtain ⟨hfirst, hlast⟩ := (h.sound n hn).thetaAt_bounds hy
    have hstarts := consecutive (pairwise_breaks ms) hab (mem_breaks_iff.mpr ⟨n, hn, .inl rfl⟩)
    have hends := consecutive (pairwise_breaks ms) hab (mem_breaks_iff.mpr ⟨n, hn, .inr rfl⟩)
    refine ⟨List.mem_filter.mpr ⟨hn, ?_⟩, y, hv, hlength, hy, hfrom, hto⟩
    simp only [Bool.and_eq_true, decide_eq_true_eq]
    omega

theorem Enlists.execute_segments {m : Model} {phase : Phase} {ms : List Member} (h : Enlists m phase ms)
    {nodes : List Node} (hnodes : segments ms = .ok nodes) :
    (Node.executeAll [] nodes).Makes () (VisitsPhase m phase) (Precedes phase) := by
  unfold segments at hnodes
  obtain ⟨loops, hloops, hnodes⟩ := Outcome.bind_eq_ok hnodes
  cases hnodes
  have hmem := (List.forall₂_and_left _ _).mpr
    ⟨fun p (hp : p ∈ (breaks ms).zip (breaks ms).tail) => hp, Outcome.forall₂_of_mapM hloops⟩
  refine (Node.executeAll_options (P := fun p v => ∃ n ∈ ms, VisitsBetween p.1 (p.2 - 1) n v)
    (hmem.imp ?_) ?_).congr fun v => ?_
  · rintro ⟨a, b⟩ loop ⟨hab, hloop⟩
    obtain ⟨body, hbody, hloop⟩ := Outcome.bind_eq_ok hloop
    simp only [Arithmetic.fit_exact] at hbody hloop
    cases hloop
    split
    · rename_i hempty
      intro v hv
      obtain ⟨n, hn, -⟩ := (h.exists_active_iff hab v).mpr hv
      obtain rfl := List.isEmpty_iff.mp hempty
      rw [List.forall₂_nil_right_iff.mp (Outcome.forall₂_of_mapM hbody)] at hn
      simp at hn
    · exact (h.execute_timeLoop List.filter_sublist hbody).congr (h.exists_active_iff hab)
  · refine (pairwise_zip_tail (pairwise_breaks ms)).imp ?_
    rintro p q hle v w ⟨n, hn, hv⟩ ⟨n', hn', hw⟩
    exact h.precedes_of_steps hn hn' hv hw (by omega)
  · rw [h.visitsPhase_iff]
    constructor
    · rintro ⟨p, -, n, hn, y, hv, hlength, hy, -⟩
      exact ⟨n, hn, y, hv, hlength, hy, (h.sound n hn).thetaAt_bounds hy⟩
    · rintro ⟨n, hn, y, hv, hlength, hy, hfirst, hlast⟩
      obtain ⟨p, hp, hfrom, hto⟩ := exists_consecutive (pairwise_breaks ms)
        (mem_breaks_iff.mpr ⟨n, hn, .inl rfl⟩) (mem_breaks_iff.mpr ⟨n, hn, .inr rfl⟩) hfirst
        (show n.placement.thetaAt (valuation y) < n.last + 1 by omega)
      exact ⟨p, hp, n, hn, y, hv, hlength, hy, hfrom, by omega⟩

/-- The nest of a phase visits the points of the phase in the order of their times. -/
theorem execute_ofPhase {m : Model} {phase : Phase} (hphase : Looped phase) {options : NestOptions}
    {nodes : List Node} (h : ofPhase m phase options = .ok nodes) :
    (Node.executeAll [] nodes).Makes () (VisitsPhase m phase) (Precedes phase) := by
  unfold ofPhase at h
  obtain ⟨ms, hms, h⟩ := Outcome.bind_eq_ok h
  have henlists := enlists_of_members hphase hms
  split at h
  · exact henlists.execute_segments h
  · exact henlists.execute_wholeLoop h

end StreamLoom.Nest
