import Mathlib.Data.Fintype.Card
import Mathlib.Data.List.Find
import Mathlib.Data.List.GetD
import Mathlib.Logic.Relation
import Mathlib.Order.Bounds.Basic
import StreamLoom.Proofs.Schedule.Solve

/-!
# The order of entries that can tie

Entries are taken one after another, each time the one declared first among those whose producers have all
been taken. This ends early only if some entries wait for each other in a circle: as long as there is no
cycle, the entries that are left have one which waits for none of them. Of two orders in which producers
precede consumers, the one taken has the entry declared earlier where they differ for the first time, since
whatever the other one takes there was available as well.

An entry is available when none of the ties into it is open. Counting the open ties, several between the
same entries as often as there are, comes to the same.
-/

namespace StreamLoom

/-! ### Orders -/

/-- The entries that an entry waits for have all been done. -/
def Available (R : Nat → Nat → Prop) (done : List Nat) (i : Nat) : Prop := ∀ j, R j i → j ∈ done

/-- A sequence of all entries in which producers precede consumers. -/
structure Topological (n : Nat) (R : Nat → Nat → Prop) (order : List Nat) : Prop where
  perm : order.Perm (List.range n)
  precedes : ∀ i j, R i j → order.idxOf i < order.idxOf j

/-- Each entry that comes after those done is the one declared first of the entries available then. -/
def Foremost (n : Nat) (R : Nat → Nat → Prop) : List Nat → List Nat → Prop
  | _, [] => True
  | done, i :: rest =>
    IsLeast {j | j < n ∧ j ∉ done ∧ Available R done j} i ∧ Foremost n R (done ++ [i]) rest

section

variable {n : Nat} {R : Nat → Nat → Prop}

/-- Whatever comes next in an order of all entries is available. -/
theorem Topological.available {done rest : List Nat} {i : Nat}
    (h : Topological n R (done ++ i :: rest)) : i < n ∧ i ∉ done ∧ Available R done i := by
  have hnodup : (done ++ i :: rest).Nodup := h.perm.nodup_iff.mpr List.nodup_range
  have hnew : i ∉ done := fun hi => (List.nodup_append.mp hnodup).2.2 i hi i (by simp) rfl
  refine ⟨List.mem_range.mp (h.perm.mem_iff.mp (by simp)), hnew, fun j hj => ?_⟩
  have hlt := h.precedes j i hj
  by_contra hlater
  rw [List.idxOf_append_of_notMem hlater, List.idxOf_append_of_notMem hnew, List.idxOf_cons_self] at hlt
  omega

/-- An order that always takes the foremost entry is the least one. -/
theorem lex_of_foremost {done rest rest' : List Nat} (hforemost : Foremost n R done rest)
    (h : Topological n R (done ++ rest')) (hlength : rest.length = rest'.length) :
    rest' = rest ∨ List.Lex (· < ·) rest rest' := by
  induction rest generalizing done rest' with
  | nil => exact .inl (List.length_eq_zero_iff.mp hlength.symm)
  | cons i rest ih =>
    cases rest' with
    | nil => cases hlength
    | cons j rest' =>
      obtain ⟨hleast, hlater⟩ := hforemost
      rcases (hleast.2 h.available).lt_or_eq with hlt | rfl
      · exact .inr (.rel hlt)
      · rw [List.append_cons] at h
        rcases ih hlater h (by simpa using hlength) with rfl | hlex
        · exact .inl rfl
        · exact .inr (.cons hlex)

theorem lt_of_foremost {done rest : List Nat} (h : Foremost n R done rest) : ∀ i ∈ rest, i < n := by
  induction rest generalizing done with
  | nil => simp
  | cons i rest ih =>
    intro j hj
    rcases List.mem_cons.mp hj with rfl | hj
    · exact h.1.1.1
    · exact ih h.2 j hj

/-- Along a chain of producers and consumers the places increase. -/
theorem Topological.lt_of_transGen {order : List Nat} (h : Topological n R order) {i j : Nat}
    (hchain : Relation.TransGen R i j) : order.idxOf i < order.idxOf j := by
  induction hchain with
  | single hij => exact h.precedes _ _ hij
  | tail _ hjk ih => exact ih.trans (h.precedes _ _ hjk)

/-- Without a cycle, one of the entries that are left waits for none of them. -/
theorem exists_available (hacyclic : ∀ i, ¬ Relation.TransGen R i i) (hrange : ∀ i j, R i j → i < n)
    {done : List Nat} {i : Nat} (hi : i < n) (hleft : i ∉ done) :
    ∃ j, j < n ∧ j ∉ done ∧ Available R done j := by
  let chain : Fin n → Fin n → Prop := fun j k => Relation.TransGen R j k
  have htrans : IsTrans (Fin n) chain := ⟨fun _ _ _ hij hjk => hij.trans hjk⟩
  have hirrefl : Std.Irrefl chain := ⟨fun j => hacyclic j⟩
  obtain ⟨j, hj, hmin⟩ := (Finite.wellFounded_of_trans_of_irrefl chain).has_min
    {j : Fin n | j.val ∉ done} ⟨⟨i, hi⟩, hleft⟩
  refine ⟨j, j.isLt, hj, fun k hk => ?_⟩
  by_contra hwaits
  exact hmin ⟨k, hrange k j hk⟩ hwaits (.single hk)

/-- The places in a sequence of all entries are all the places. -/
theorem places_perm {order : List Nat} (h : order.Perm (List.range n)) :
    ((List.range n).map order.idxOf).Perm (List.range n) := by
  have hnodup : order.Nodup := h.nodup_iff.mpr List.nodup_range
  have hlength : order.length = n := by simpa using h.length_eq
  have hplaces : order.map order.idxOf = List.range n := by
    refine List.ext_getElem (by simp [hlength]) fun k hk _ => ?_
    simp [hnodup.idxOf_getElem]
  exact (h.symm.map _).trans (List.Perm.of_eq hplaces)

end

namespace Tie

variable {n : Nat} {ties : List Tie} {done : List Nat}

/-! ### Taking entries -/

theorem mem_pending {i : Nat} : i ∈ pending n done ↔ i < n ∧ i ∉ done := by
  simp [pending]

theorem isReady_iff {i : Nat} :
    isReady ties done i = true ↔ Available (fun j k => ⟨j, k⟩ ∈ ties) done i := by
  simp only [isReady, List.all_eq_true, Bool.or_eq_true, bne_iff_ne, List.contains_iff_mem]
  constructor
  · intro h j hj
    simpa using h ⟨j, i⟩ hj
  · rintro h ⟨j, k⟩ ht
    by_cases hk : k = i
    · subst hk
      exact .inr (h j ht)
    · exact .inl hk

/-- The first entry which is found ready is the one declared first. -/
theorem isLeast_of_find? {i : Nat} (h : (pending n done).find? (isReady ties done) = some i) :
    IsLeast {j | j < n ∧ j ∉ done ∧ Available (fun j k => ⟨j, k⟩ ∈ ties) done j} i := by
  obtain ⟨hready, earlier, later, hsplit, hearlier⟩ := List.find?_eq_some_iff_append.mp h
  obtain ⟨hi, hnew⟩ := mem_pending.mp (List.mem_of_find?_eq_some h)
  have hsorted : (pending n done).Pairwise (· < ·) := List.pairwise_lt_range.filter _
  rw [hsplit, List.pairwise_append, List.pairwise_cons] at hsorted
  refine ⟨⟨hi, hnew, isReady_iff.mp hready⟩, ?_⟩
  rintro j ⟨hj, hleft, havailable⟩
  have hmem := mem_pending.mpr ⟨hj, hleft⟩
  rw [hsplit, List.mem_append, List.mem_cons] at hmem
  rcases hmem with hmem | rfl | hmem
  · have hwaits := hearlier j hmem
    rw [isReady_iff.mpr havailable] at hwaits
    cases hwaits
  · exact le_rfl
  · exact (hsorted.2.1.1 j hmem).le

theorem foremost_of_take {count : Nat} {order : List Nat} (h : take n ties count done = .ok order) :
    ∃ rest, order = done ++ rest ∧ Foremost n (fun j k => ⟨j, k⟩ ∈ ties) done rest := by
  induction count generalizing done with
  | zero => exact ⟨[], by simpa using (Except.ok.inj h).symm, trivial⟩
  | succ count ih =>
    rw [take] at h
    split at h
    · rename_i i hi
      obtain ⟨rest, rfl, hrest⟩ := ih h
      exact ⟨i :: rest, by simp, isLeast_of_find? hi, hrest⟩
    · cases h

/-- As long as not all entries are done, there is a pending one. -/
theorem exists_pending (h : done.length < n) : ∃ i, i ∈ pending n done := by
  by_contra hnone
  have hsubset : List.range n ⊆ done := by
    intro i hi
    by_contra hleft
    exact hnone ⟨i, mem_pending.mpr ⟨List.mem_range.mp hi, hleft⟩⟩
  have hle := (List.subperm_of_subset List.nodup_range hsubset).length_le
  rw [List.length_range] at hle
  omega

/-- Entries are left over only where some wait for each other in a circle. -/
theorem exists_cycle_of_take {count : Nat} {waiting : List Nat} (hrange : ∀ t ∈ ties, t.producer < n)
    (hcount : count + done.length ≤ n) (h : take n ties count done = .error waiting) :
    ∃ i, Relation.TransGen (fun j k => ⟨j, k⟩ ∈ ties) i i := by
  induction count generalizing done with
  | zero => cases h
  | succ count ih =>
    rw [take] at h
    split at h
    · refine ih ?_ h
      rw [List.length_append, List.length_singleton]
      omega
    · rename_i hnone
      obtain ⟨i, hi⟩ := exists_pending (show done.length < n by omega)
      obtain ⟨hi, hleft⟩ := mem_pending.mp hi
      by_contra hacyclic
      obtain ⟨j, hj, hwaits, havailable⟩ := exists_available (fun i hcycle => hacyclic ⟨i, hcycle⟩)
        (fun j k htie => hrange ⟨j, k⟩ htie) hi hleft
      exact List.find?_eq_none.mp hnone j (mem_pending.mpr ⟨hj, hwaits⟩) (isReady_iff.mpr havailable)

/-- The sequence has every entry once, and after all that it is tied to. -/
theorem topological_of_sequence (hrange : ∀ t ∈ ties, t.consumer < n) {order : List Nat}
    (h : sequence n ties = .ok order) : Topological n (fun j k => ⟨j, k⟩ ∈ ties) order := by
  obtain ⟨hnodup, hcomplete, htied⟩ := sequence_spec h
  obtain ⟨rest, hsplit, hforemost⟩ := foremost_of_take h
  rw [List.nil_append] at hsplit
  have hperm : order.Perm (List.range n) := by
    rw [List.perm_ext_iff_of_nodup hnodup List.nodup_range]
    intro i
    rw [List.mem_range]
    exact ⟨fun hi => lt_of_foremost hforemost i (hsplit ▸ hi), hcomplete i⟩
  exact ⟨hperm, fun i j htie => htied ⟨i, j⟩ htie (hrange ⟨i, j⟩ htie)⟩

/-! ### Counting ties -/

/-- Adds a number to the count of the consumer of each tie. -/
def shift (d : Int) (ties : List Tie) (counts : List Int) : List Int :=
  ties.foldl (fun counts t => counts.modify t.consumer (· + d)) counts

/-- Takes entries of which no tie is counted any more. An entry that is taken gives back the ties to its
consumers, each on its own. -/
def takeCounted (n : Nat) (ties : List Tie) : Nat → List Int → List Nat → Except (List Nat) (List Nat)
  | 0, _, done => .ok done
  | count + 1, counts, done =>
    match (pending n done).find? fun i => counts.getD i 0 == 0 with
    | some i => takeCounted n ties count (shift (-1) (ties.filter (·.producer == i)) counts) (done ++ [i])
    | none => .error (pending n done)

/-- The sequence that is found by counting, for each entry, the ties into it that are open. -/
def countedSequence (n : Nat) (ties : List Tie) : Except (List Nat) (List Nat) :=
  takeCounted n ties n (shift 1 ties (List.replicate n 0)) []

/-- The ties into an entry whose producers have not been done. -/
def openTies (ties : List Tie) (done : List Nat) (i : Nat) : Nat :=
  ties.countP fun t => t.consumer == i && !done.contains t.producer

theorem shift_spec (d : Int) (added : List Tie) (counts : List Int)
    (hrange : ∀ t ∈ added, t.consumer < counts.length) :
    (shift d added counts).length = counts.length ∧
      ∀ i, (shift d added counts).getD i 0 = counts.getD i 0 + d * added.countP (·.consumer == i) := by
  induction added generalizing counts with
  | nil => simp [shift]
  | cons t added ih =>
    have ht := hrange t (by simp)
    obtain ⟨hlength, hcounts⟩ := ih (counts.modify t.consumer (· + d))
      (by simpa using fun t ht => hrange t (by simp [ht]))
    refine ⟨by simpa [shift] using hlength, fun i => ?_⟩
    have hadded := congrFun (valuation_modify ht (· + d)) i
    simp only [valuation, Function.update_apply] at hadded
    have hstep : shift d (t :: added) counts = shift d added (counts.modify t.consumer (· + d)) := rfl
    rw [hstep, hcounts, hadded, List.countP_cons]
    by_cases hi : i = t.consumer
    · subst hi
      simp
      ring
    · have hother : ¬ t.consumer = i := fun heq => hi heq.symm
      simp [hi, hother]

/-- An entry that is done closes each of its ties. -/
theorem openTies_snoc {i : Nat} (hnew : i ∉ done) (j : Nat) :
    openTies ties (done ++ [i]) j + (ties.filter (·.producer == i)).countP (·.consumer == j) =
      openTies ties done j := by
  unfold openTies
  induction ties with
  | nil => rfl
  | cons t ties ih =>
    by_cases hproducer : t.producer = i
    · have hclosed : (done ++ [i]).contains t.producer = true := by simp [hproducer]
      have hopen : done.contains t.producer = false := by simpa [hproducer] using hnew
      rw [List.filter_cons_of_pos (by simpa using hproducer), List.countP_cons, List.countP_cons,
        List.countP_cons, ← ih, hclosed, hopen]
      simp only [Bool.not_true, Bool.and_false, Bool.not_false, Bool.and_true, Bool.false_eq_true, if_false]
      omega
    · have hsame : (done ++ [i]).contains t.producer = done.contains t.producer := by simp [hproducer]
      rw [List.filter_cons_of_neg (by simpa using hproducer), List.countP_cons, List.countP_cons, ← ih,
        hsame]
      omega

/-- Nothing is counted where an entry is ready. -/
theorem openTies_eq_zero_iff {i : Nat} : openTies ties done i = 0 ↔ isReady ties done i = true := by
  simp only [openTies, isReady, List.countP_eq_zero, List.all_eq_true]
  refine forall₂_congr fun t _ => ?_
  cases h : t.consumer == i <;> simp [bne, h]

theorem takeCounted_eq_take {count : Nat} {counts : List Int} (hrange : ∀ t ∈ ties, t.consumer < n)
    (hlength : counts.length = n)
    (hcounts : ∀ i, counts.getD i 0 = openTies ties done i) :
    takeCounted n ties count counts done = take n ties count done := by
  induction count generalizing counts done with
  | zero => rfl
  | succ count ih =>
    have hfind : ((pending n done).find? fun i => counts.getD i 0 == 0) =
        (pending n done).find? (isReady ties done) := by
      refine List.find?_congr fun i _ => ?_
      rw [Bool.eq_iff_iff, beq_iff_eq, hcounts, ← openTies_eq_zero_iff]
      exact Int.natCast_eq_zero
    rw [takeCounted, take, hfind]
    cases hnext : (pending n done).find? (isReady ties done) with
    | none => rfl
    | some i =>
      obtain ⟨-, hnew⟩ := mem_pending.mp (List.mem_of_find?_eq_some hnext)
      have hreleased := shift_spec (-1) (ties.filter (·.producer == i)) counts
        fun t ht => hlength ▸ hrange t (List.mem_filter.mp ht).1
      refine ih (hreleased.1.trans hlength) fun j => ?_
      rw [hreleased.2, hcounts, ← openTies_snoc hnew j]
      push_cast
      ring

/-- Counting the open ties finds the same sequence, and the same entries that wait. -/
theorem countedSequence_eq (hrange : ∀ t ∈ ties, t.consumer < n) :
    countedSequence n ties = sequence n ties := by
  have hcounted := shift_spec 1 ties (List.replicate n 0) (by simpa using hrange)
  refine takeCounted_eq_take hrange (by simpa using hcounted.1) fun i => ?_
  rw [hcounted.2, List.getD_eq_getElem?_getD, List.getElem?_getD_replicate_default_eq, openTies]
  simp

end Tie

/-! ### The order of a problem -/

namespace Problem

section

variable [Arithmetic]

/-- A producer precedes a consumer when the least time from the one to the other, as far as it is known, is
not positive. -/
def Precedes (p : Problem) (delays : List Int) (i j : Nat) : Prop :=
  i ≠ j ∧ ∃ e ∈ p.edges, e.producer = i ∧ e.consumer = j ∧ ∃ lowest,
    e.relation.pairs.minimum ((p.lag e).plus (fit (delays.getD j 0 - delays.getD i 0))) = some lowest ∧
      lowest ≤ .int 0

theorem canTie_iff {p : Problem} {delays : List Int} {e : Edge} :
    p.canTie delays e = true ↔ ∃ lowest, e.relation.pairs.minimum
      ((p.lag e).plus (fit (delays.getD e.consumer 0 - delays.getD e.producer 0))) = some lowest ∧
        lowest ≤ .int 0 := by
  unfold canTie
  dsimp only
  cases e.relation.pairs.minimum
      ((p.lag e).plus (fit (delays.getD e.consumer 0 - delays.getD e.producer 0))) <;> simp

theorem precedes_iff {p : Problem} {delays : List Int} {i j : Nat} :
    p.Precedes delays i j ↔ ⟨i, j⟩ ∈ p.ties delays := by
  simp only [Precedes, ties, List.mem_map, List.mem_filter, Bool.and_eq_true, bne_iff_ne, canTie_iff,
    Tie.mk.injEq]
  constructor
  · rintro ⟨hne, e, he, rfl, rfl, htie⟩
    exact ⟨e, ⟨he, hne, htie⟩, rfl, rfl⟩
  · rintro ⟨e, ⟨he, hne, htie⟩, rfl, rfl⟩
    exact ⟨hne, e, he, rfl, rfl, htie⟩

/-- The entries are ordered unless they precede each other in a circle. In the order every entry has its own
place, and producers precede consumers. Each place is taken by the entry declared first of those available,
so that the order is the least one in which producers precede consumers. -/
theorem order_foremost {p : Problem} (hp : ∀ e ∈ p.edges, e.producer < p.entries.length ∧
    e.consumer < p.entries.length) (delays : List Int) :
    ((∃ failure, p.order delays = .error failure) ↔ ∃ i, Relation.TransGen (p.Precedes delays) i i) ∧
    (∀ order, p.order delays = .ok order →
      ((List.range p.entries.length).map order.idxOf).Perm (List.range p.entries.length) ∧
      Topological p.entries.length (p.Precedes delays) order ∧
      Foremost p.entries.length (p.Precedes delays) [] order ∧
      ∀ other, Topological p.entries.length (p.Precedes delays) other →
        other = order ∨ List.Lex (· < ·) order other) ∧
    p.order delays = (Tie.countedSequence p.entries.length (p.ties delays)).mapError
      (p.infeasible "cyclic dependencies at same time") := by
  have hgraph : p.Precedes delays = fun i j => ⟨i, j⟩ ∈ p.ties delays := by
    funext i j
    exact propext precedes_iff
  have hrange : ∀ t ∈ p.ties delays, t.producer < p.entries.length ∧ t.consumer < p.entries.length := by
    intro t ht
    obtain ⟨e, he, rfl⟩ := List.mem_map.mp ht
    exact hp e (List.mem_filter.mp he).1
  have hsequence : ∀ order, p.order delays = .ok order →
      Tie.sequence p.entries.length (p.ties delays) = .ok order := fun order h =>
    Outcome.mapError_eq_ok h
  have htopological : ∀ order, p.order delays = .ok order →
      Topological p.entries.length (p.Precedes delays) order := by
    intro order h
    rw [hgraph]
    exact Tie.topological_of_sequence (fun t ht => (hrange t ht).2) (hsequence order h)
  refine ⟨⟨?_, ?_⟩, fun order h => ?_, ?_⟩
  · rintro ⟨failure, h⟩
    obtain ⟨waiting, hwaiting, -⟩ := Outcome.mapError_eq_error h
    rw [hgraph]
    exact Tie.exists_cycle_of_take (fun t ht => (hrange t ht).1) (by simp) hwaiting
  · rintro ⟨i, hcycle⟩
    cases horder : p.order delays with
    | error failure => exact ⟨failure, rfl⟩
    | ok order => exact absurd ((htopological order horder).lt_of_transGen hcycle) (lt_irrefl _)
  · have horder := htopological order h
    obtain ⟨rest, hsplit, hforemost⟩ := Tie.foremost_of_take (hsequence order h)
    rw [← hgraph] at hforemost
    rw [List.nil_append] at hsplit
    obtain rfl : order = rest := hsplit
    refine ⟨places_perm horder.perm, horder, hforemost, fun other hother => ?_⟩
    exact lex_of_foremost hforemost hother (horder.perm.length_eq.trans hother.perm.length_eq.symm)
  · rw [order, Tie.countedSequence_eq fun t ht => (hrange t ht).2]

end

attribute [local instance] Arithmetic.word64

/-- The first entry reads the last one twice, and the second one reads the first but is delayed. -/
private def twice : Problem where
  entries := ["sum", "late", "in"].map fun name => ⟨name, ⟨name, 1, 0, []⟩, some 0, 1, none⟩
  edges := [⟨2, 0, .identity "sum" "in" 1⟩, ⟨2, 0, .identity "sum" "in" 1⟩,
    ⟨0, 1, .identity "late" "sum" 1⟩]

/-- The delayed entry does not wait, and of the places in which it could be it has the first. -/
theorem order_foremost_twice :
    (∀ e ∈ twice.edges, e.producer < twice.entries.length ∧ e.consumer < twice.entries.length) ∧
      twice.order [0, 1, 0] = .ok [1, 2, 0] ∧ Topological 3 (twice.Precedes [0, 1, 0]) [1, 2, 0] ∧
      ∀ other, Topological 3 (twice.Precedes [0, 1, 0]) other →
        other = [1, 2, 0] ∨ List.Lex (· < ·) [1, 2, 0] other := by
  have hedges : ∀ e ∈ twice.edges,
      e.producer < twice.entries.length ∧ e.consumer < twice.entries.length := by
    simp [twice]
  have hrun : Outcome.passes (twice.order [0, 1, 0]) (· == [1, 2, 0]) = true := by
    decide +kernel
  obtain ⟨order, horder, hrun⟩ := Outcome.exists_of_passes hrun
  obtain rfl : order = [1, 2, 0] := eq_of_beq hrun
  obtain ⟨-, htopological, -, hleast⟩ := (order_foremost hedges [0, 1, 0]).2.1 _ horder
  exact ⟨hedges, horder, htopological, hleast⟩

end Problem

end StreamLoom
