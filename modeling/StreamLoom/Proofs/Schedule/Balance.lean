import Mathlib.Logic.Relation
import StreamLoom.Proofs.Schedule.Rates

/-!
# Rates are balanced

The rates of connected arrays are spread from one of them, along one balance after the other. When an array has got
its rate early, a balance that is only looked at later must be met all the same, and a round in which nothing
changes is the one in which all of them are checked. There are enough rounds for that, because every round before
gives some balance its second rate.

What is found for an array is what any solution has there, relative to the array that it all started from. This is
why a balance can only be broken when there is no solution at all.
-/

namespace StreamLoom

attribute [local instance] Arithmetic.exact

namespace Balance

variable {rates rates' : Rates Rat} {b : Balance} {balances : List Balance}

/-! ### Steps -/

/-- Neither of the arrays has a rate. -/
def Untouched (rates : Rates Rat) (b : Balance) : Prop :=
  rates.lookup b.producer = none ∧ rates.lookup b.consumer = none

/-- Both arrays have rates, which satisfy the balance. -/
def Met (rates : Rates Rat) (b : Balance) : Prop :=
  ∃ p c, rates.lookup b.producer = some p ∧ rates.lookup b.consumer = some c ∧ p = c * b.ratio

/-- The entry that a balance determines of an array which has no rate yet. -/
inductive Determines (rates : Rates Rat) (b : Balance) : Nat × Rat → Prop
  | producer {c : Rat} (hnew : rates.lookup b.producer = none)
      (hconsumer : rates.lookup b.consumer = some c) : Determines rates b (b.producer, c * b.ratio)
  | consumer {p : Rat} (hproducer : rates.lookup b.producer = some p)
      (hnew : rates.lookup b.consumer = none) : Determines rates b (b.consumer, p / b.ratio)

theorem apply_cases (h : b.apply rates = .ok rates') :
    rates' = rates ∧ (b.Untouched rates ∨ b.Met rates) ∨
      ∃ entry, b.Determines rates entry ∧ rates' = rates ++ [entry] := by
  unfold apply at h
  split at h
  · rename_i c hp hc
    cases h
    exact .inr ⟨_, .producer hp hc, rfl⟩
  · rename_i p hp hc
    cases h
    exact .inr ⟨_, .consumer hp hc, rfl⟩
  · rename_i p c hp hc
    split at h
    · rename_i hbalanced
      cases h
      exact .inl ⟨rfl, .inr ⟨p, c, hp, hc, hbalanced⟩⟩
    · cases h
  · rename_i hp hc
    cases h
    exact .inl ⟨rfl, .inl ⟨hp, hc⟩⟩

theorem apply_error {e : Failure} (h : b.apply rates = .error e) :
    ∃ p c, rates.lookup b.producer = some p ∧ rates.lookup b.consumer = some c ∧ p ≠ c * b.ratio := by
  unfold apply at h
  split at h
  · cases h
  · cases h
  · rename_i p c hp hc
    split at h
    · cases h
    · rename_i hbroken
      exact ⟨p, c, hp, hc, hbroken⟩
  · cases h

theorem apply_of_settled (h : b.Untouched rates ∨ b.Met rates) : b.apply rates = .ok rates := by
  rcases h with ⟨hp, hc⟩ | ⟨p, c, hp, hc, hbalanced⟩
  · rw [apply, hp, hc]
  · rw [apply, hp, hc]
    exact if_pos hbalanced

theorem Determines.new {entry : Nat × Rat} (h : b.Determines rates entry) :
    rates.lookup entry.1 = none := by
  cases h with
  | producer hnew _ => exact hnew
  | consumer _ hnew => exact hnew

theorem Determines.met (hb : 0 < b.ratio) {entry : Nat × Rat} (h : b.Determines rates entry) :
    b.Met (rates ++ [entry]) := by
  have hratio : (b.ratio : Rat) ≠ 0 := by exact_mod_cast hb.ne'
  have hself : (rates ++ [entry]).lookup entry.1 = some entry.2 := by
    rw [Rates.lookup_append_of_none h.new]
    exact List.lookup_cons_self
  cases h with
  | producer hnew hc => exact ⟨_, _, hself, Rates.lookup_append_of_some hc, rfl⟩
  | consumer hp hnew =>
    exact ⟨_, _, Rates.lookup_append_of_some hp, hself, (div_mul_cancel₀ _ hratio).symm⟩

/-! ### Rounds -/

/-- Every balance is met, unless neither of its arrays has a rate. -/
def Settled (balances : List Balance) (rates : Rates Rat) : Prop :=
  ∀ b ∈ balances, b.Untouched rates ∨ b.Met rates

def isKnown (rates : Rates Rat) (b : Balance) : Bool :=
  (rates.lookup b.producer).isSome && (rates.lookup b.consumer).isSome

theorem Met.isKnown (h : b.Met rates) : b.isKnown rates = true := by
  obtain ⟨p, c, hp, hc, -⟩ := h
  simp [Balance.isKnown, hp, hc]

theorem isKnown_mono (hgrows : rates <+: rates') (h : b.isKnown rates = true) :
    b.isKnown rates' = true := by
  obtain ⟨more, rfl⟩ := hgrows
  simp only [isKnown, Bool.and_eq_true, Option.isSome_iff_exists] at h ⊢
  obtain ⟨⟨p, hp⟩, c, hc⟩ := h
  exact ⟨⟨p, Rates.lookup_append_of_some hp⟩, c, Rates.lookup_append_of_some hc⟩

theorem isKnown_of_determines {entry : Nat × Rat} (h : b.Determines rates entry) :
    b.isKnown rates = false := by
  cases h with
  | producer hnew _ => simp [isKnown, hnew]
  | consumer _ hnew => simp [isKnown, hnew]

/-- A round finds that everything is settled, or it gives some balance its second rate. -/
theorem round_cases (hratio : ∀ b ∈ balances, 0 < b.ratio)
    (h : balances.foldlM apply rates = .ok rates') :
    rates <+: rates' ∧ (rates' = rates ∧ Settled balances rates ∨
      ∃ b ∈ balances, b.isKnown rates = false ∧ b.isKnown rates' = true) := by
  induction balances generalizing rates with
  | nil =>
    cases h
    exact ⟨List.prefix_rfl, .inl ⟨rfl, by simp [Settled]⟩⟩
  | cons b rest ih =>
    rw [List.foldlM_cons] at h
    obtain ⟨rates₁, hfirst, hrest⟩ := Outcome.bind_eq_ok h
    obtain ⟨hgrows, hcases⟩ := ih (fun b' hb' => hratio b' (by simp [hb'])) hrest
    rcases apply_cases hfirst with ⟨rfl, hsettled⟩ | ⟨entry, hentry, rfl⟩
    · refine ⟨hgrows, ?_⟩
      rcases hcases with ⟨rfl, hall⟩ | ⟨b', hb', hbefore, hafter⟩
      · exact .inl ⟨rfl, List.forall_mem_cons.mpr ⟨hsettled, hall⟩⟩
      · exact .inr ⟨b', by simp [hb'], hbefore, hafter⟩
    · refine ⟨(List.prefix_append _ _).trans hgrows, .inr ⟨b, by simp, isKnown_of_determines hentry, ?_⟩⟩
      exact isKnown_mono hgrows (hentry.met (hratio b (by simp))).isKnown

private theorem countP_lt {α : Type} {p q : α → Bool} {xs : List α} (himp : ∀ x, p x = true → q x = true)
    {x : α} (hx : x ∈ xs) (hp : p x = false) (hq : q x = true) : xs.countP p < xs.countP q := by
  induction xs with
  | nil => cases hx
  | cons y rest ih =>
    have hle : rest.countP p ≤ rest.countP q := List.countP_mono_left fun x _ => himp x
    have hhead := himp y
    rw [List.countP_cons, List.countP_cons]
    rcases List.mem_cons.mp hx with rfl | hx
    · simp only [hp, hq]
      simp only [Bool.false_eq_true, if_false, if_true]
      omega
    · have hlt := ih hx
      split
      · rename_i hy
        rw [if_pos (hhead hy)]
        omega
      · omega

private theorem spread_of_settled (h : Settled balances rates) (rounds : Nat) :
    spread balances rounds rates = .ok rates := by
  have hround : ∀ bs : List Balance, (∀ b ∈ bs, b ∈ balances) → bs.foldlM apply rates = .ok rates := by
    intro bs hbs
    induction bs with
    | nil => rfl
    | cons b rest ih =>
      rw [List.foldlM_cons, apply_of_settled (h b (hbs b (by simp)))]
      exact ih fun b' hb' => hbs b' (by simp [hb'])
  induction rounds with
  | zero => rfl
  | succ rounds ih =>
    rw [spread, hround balances fun _ hb => hb]
    exact ih

/-- More rounds than there are balances to be found settle all of them. -/
theorem settled_of_spread (hratio : ∀ b ∈ balances, 0 < b.ratio) {rounds : Nat}
    (hrounds : balances.countP (fun b => !b.isKnown rates) < rounds)
    (h : spread balances rounds rates = .ok rates') : Settled balances rates' := by
  induction rounds generalizing rates with
  | zero => omega
  | succ rounds ih =>
    rw [spread] at h
    obtain ⟨rates₁, hround, hrest⟩ := Outcome.bind_eq_ok h
    obtain ⟨hgrows, ⟨rfl, hsettled⟩ | ⟨b, hb, hbefore, hafter⟩⟩ := round_cases hratio hround
    · rw [spread_of_settled hsettled] at hrest
      cases hrest
      exact hsettled
    · refine ih ?_ hrest
      have hlt : balances.countP (fun b => !b.isKnown rates₁) < balances.countP fun b => !b.isKnown rates := by
        refine countP_lt (fun b' hb' => ?_) hb (by simp [hafter]) (by simp [hbefore])
        by_contra hknown
        rw [isKnown_mono hgrows (by simpa using hknown)] at hb'
        cases hb'
      omega

/-! ### Components -/

def Linked (balances : List Balance) (p c : Nat) : Prop :=
  ∃ b ∈ balances, b.producer = p ∧ b.consumer = c

def Solution (balances : List Balance) (ρ : Nat → Rat) : Prop :=
  ∀ b ∈ balances, ρ b.producer = b.ratio * ρ b.consumer

/-- No positive numbers satisfy every balance. -/
def Unsolvable (balances : List Balance) : Prop :=
  ¬ ∃ ρ : Nat → Rat, (∀ array, 0 < ρ array) ∧ Solution balances ρ

/-- What was found from an array `start`, beside what is known of the arrays that are not connected to it. -/
structure Component (balances : List Balance) (known : Rates Rat) (start : Nat) (found : Rates Rat) :
    Prop where
  started : (start, 1) ∈ found
  nodup : ((known ++ found).map (·.1)).Nodup
  positive : ∀ r ∈ found, 0 < r.2
  connected : ∀ r ∈ found, Relation.EqvGen (Linked balances) start r.1
  proportional : ∀ ρ, Solution balances ρ → ∀ r ∈ found, ρ r.1 = r.2 * ρ start

section

variable {known found : Rates Rat} {start : Nat}

theorem component_start (hnodup : (known.map (·.1)).Nodup) (hnew : known.lookup start = none) :
    Component balances known start [(start, 1)] where
  started := List.mem_singleton_self _
  nodup := Rates.nodup_concat hnodup hnew
  positive := by simp
  connected := by
    intro r hr
    obtain rfl := List.mem_singleton.mp hr
    exact .refl _
  proportional := by
    intro ρ _ r hr
    obtain rfl := List.mem_singleton.mp hr
    exact (one_mul _).symm

/-- What a balance determines is part of the component, because those that are settled determine nothing. -/
private theorem Component.determine (hsettled : Settled balances known)
    (hratio : ∀ b ∈ balances, 0 < b.ratio) (h : Component balances known start found) (hb : b ∈ balances)
    {entry : Nat × Rat} (hentry : b.Determines (known ++ found) entry) :
    Component balances known start (found ++ [entry]) := by
  have hpositive : (0 : Rat) < b.ratio := by exact_mod_cast hratio b hb
  have huntouched : b.Untouched known := by
    refine (hsettled b hb).resolve_right ?_
    rintro ⟨p, c, hp, hc, -⟩
    cases hentry with
    | producer hnew _ =>
      rw [Rates.lookup_eq_none_of_append hnew] at hp
      cases hp
    | consumer _ hnew =>
      rw [Rates.lookup_eq_none_of_append hnew] at hc
      cases hc
  -- The other array of the balance was found before.
  have hother : 0 < entry.2 ∧ Relation.EqvGen (Linked balances) start entry.1 ∧
      ∀ ρ, Solution balances ρ → ρ entry.1 = entry.2 * ρ start := by
    cases hentry with
    | @producer c _ hc =>
      rw [Rates.lookup_append_of_none huntouched.2] at hc
      have hmem := Rates.mem_of_lookup hc
      refine ⟨mul_pos (h.positive _ hmem) hpositive,
        (h.connected _ hmem).trans _ _ _ (.symm _ _ (.rel _ _ ⟨b, hb, rfl, rfl⟩)), fun ρ hρ => ?_⟩
      rw [hρ b hb, h.proportional ρ hρ _ hmem]
      ring
    | @consumer p hp _ =>
      rw [Rates.lookup_append_of_none huntouched.1] at hp
      have hmem := Rates.mem_of_lookup hp
      refine ⟨div_pos (h.positive _ hmem) hpositive,
        (h.connected _ hmem).trans _ _ _ (.rel _ _ ⟨b, hb, rfl, rfl⟩), fun ρ hρ => ?_⟩
      have hproducer := (hρ b hb).symm.trans (h.proportional ρ hρ _ hmem)
      rw [div_mul_eq_mul_div, eq_div_iff hpositive.ne', mul_comm]
      exact hproducer
  refine ⟨List.mem_append_left _ h.started, ?_, ?_, ?_, fun ρ hρ => ?_⟩
  · rw [← List.append_assoc]
    exact Rates.nodup_concat h.nodup hentry.new
  · exact List.forall_mem_append.mpr ⟨h.positive, List.forall_mem_singleton.mpr hother.1⟩
  · exact List.forall_mem_append.mpr ⟨h.connected, List.forall_mem_singleton.mpr hother.2.1⟩
  · exact List.forall_mem_append.mpr
      ⟨h.proportional ρ hρ, List.forall_mem_singleton.mpr (hother.2.2 ρ hρ)⟩

/-- Rates that consist of what is known and of a component. -/
private def Extends (balances : List Balance) (known : Rates Rat) (start : Nat) (rates : Rates Rat) : Prop :=
  ∃ found, rates = known ++ found ∧ Component balances known start found

/-- A balance can only be broken when there is no solution, because what was found is proportional to it. -/
private theorem Component.unsolvable (hsettled : Settled balances known)
    (h : Component balances known start found) (hb : b ∈ balances) {p c : Rat}
    (hp : (known ++ found).lookup b.producer = some p) (hc : (known ++ found).lookup b.consumer = some c)
    (hbroken : p ≠ c * b.ratio) : Unsolvable balances := by
  rintro ⟨ρ, hpositive, hρ⟩
  apply hbroken
  rcases hsettled b hb with ⟨hp', hc'⟩ | ⟨p', c', hp', hc', hbalanced⟩
  · rw [Rates.lookup_append_of_none hp'] at hp
    rw [Rates.lookup_append_of_none hc'] at hc
    have hproducer := h.proportional ρ hρ _ (Rates.mem_of_lookup hp)
    rw [hρ b hb, h.proportional ρ hρ _ (Rates.mem_of_lookup hc)] at hproducer
    refine mul_right_cancel₀ (hpositive start).ne' ?_
    rw [← hproducer]
    ring
  · obtain rfl := Option.some.inj (hp.symm.trans (Rates.lookup_append_of_some hp'))
    obtain rfl := Option.some.inj (hc.symm.trans (Rates.lookup_append_of_some hc'))
    exact hbalanced

private theorem apply_ensures (hsettled : Settled balances known) (hratio : ∀ b ∈ balances, 0 < b.ratio)
    (hb : b ∈ balances) (h : Extends balances known start rates) :
    Outcome.Ensures (b.apply rates) (Extends balances known start) fun _ => Unsolvable balances := by
  obtain ⟨found, rfl, hfound⟩ := h
  refine ⟨fun rates' happly => ?_, fun e happly => ?_⟩
  · rcases apply_cases happly with ⟨rfl, -⟩ | ⟨entry, hentry, rfl⟩
    · exact ⟨found, rfl, hfound⟩
    · exact ⟨found ++ [entry], List.append_assoc _ _ _, hfound.determine hsettled hratio hb hentry⟩
  · obtain ⟨p, c, hp, hc, hbroken⟩ := apply_error happly
    exact hfound.unsolvable hsettled hb hp hc hbroken

private theorem spread_ensures (hsettled : Settled balances known) (hratio : ∀ b ∈ balances, 0 < b.ratio)
    (rounds : Nat) (h : Extends balances known start rates) :
    Outcome.Ensures (spread balances rounds rates) (Extends balances known start)
      fun _ => Unsolvable balances := by
  induction rounds generalizing rates with
  | zero => exact Outcome.ensures_ok h
  | succ rounds ih =>
    have hround := Outcome.ensures_foldlM
      (fun b hb rates' hrates' => apply_ensures hsettled hratio hb hrates') h
    exact hround.bind fun rates' hrates' => ih hrates'

end

end Balance

namespace Rates

/-! ### Periods -/

open Balance (Settled Component Linked Solution Unsolvable)

variable {balances : List Balance} {known : Rates Rat × Rates Int}

/-- The periods of whole components that are known. Each of them satisfies the balances by the least integers. -/
structure Balanced (balances : List Balance) (known : Rates Rat × Rates Int) : Prop where
  settled : Settled balances known.1
  nodup : (known.1.map (·.1)).Nodup
  keys : known.2.map (·.1) = known.1.map (·.1)
  positive : ∀ y ∈ known.2, 0 < y.2
  met : ∀ b ∈ balances, ∀ p c, known.2.lookup b.producer = some p → known.2.lookup b.consumer = some c →
    p = b.ratio * c
  coprime : ∀ array ∈ known.2.map (·.1), ∀ g : Int,
    (∀ other r, Relation.EqvGen (Linked balances) array other → known.2.lookup other = some r → g ∣ r) → g ∣ 1

theorem balanced_nil (balances : List Balance) : Balanced balances ([], []) where
  settled := fun _ _ => .inl ⟨rfl, rfl⟩
  nodup := .nil
  keys := rfl
  positive := nofun
  met := nofun
  coprime := nofun

theorem Balanced.lookup_isNone (h : Balanced balances known) {a : Nat} (ha : known.1.lookup a = none) :
    known.2.lookup a = none := by
  rw [lookup_eq_none_iff] at ha ⊢
  rwa [h.keys]

theorem Balanced.exists_lookup (h : Balanced balances known) {a : Nat} {r : Rat}
    (ha : known.1.lookup a = some r) : ∃ y, known.2.lookup a = some y := by
  rw [← Option.isSome_iff_exists, lookup_isSome_iff, h.keys, ← lookup_isSome_iff, ha]
  rfl

/-- The balances of a new component are met, because it was scaled as a whole. -/
private theorem met_of_least {rates found : Rates Rat} {b : Balance} (hnew : b.Untouched rates)
    (hsettled : b.Untouched (rates ++ found) ∨ b.Met (rates ++ found)) {periods : Rates Int} {factor : Rat}
    (hleast : Least found periods factor) {p c : Int} (hp : periods.lookup b.producer = some p)
    (hc : periods.lookup b.consumer = some c) : p = b.ratio * c := by
  obtain ⟨r, hr, hpvalue⟩ := hleast.lookup hp
  obtain ⟨r', hr', hcvalue⟩ := hleast.lookup hc
  rw [← lookup_append_of_none hnew.1] at hr
  rw [← lookup_append_of_none hnew.2] at hr'
  rcases hsettled with ⟨hnone, -⟩ | ⟨q, q', hq, hq', hbalanced⟩
  · rw [hr] at hnone
    cases hnone
  · obtain rfl := Option.some.inj (hr.symm.trans hq)
    obtain rfl := Option.some.inj (hr'.symm.trans hq')
    have hcast : (p : Rat) = b.ratio * c := by
      rw [hpvalue, hcvalue, hbalanced]
      ring
    exact_mod_cast hcast

private theorem Balanced.extend (h : Balanced balances known) {start : Nat} {found : Rates Rat}
    (hfound : Component balances known.1 start found) (hsettled : Settled balances (known.1 ++ found))
    {periods : Rates Int} {factor : Rat} (hleast : Least found periods factor) :
    Balanced balances (known.1 ++ found, known.2 ++ periods) := by
  have hkeys : (known.2 ++ periods).map (·.1) = (known.1 ++ found).map (·.1) := by
    rw [List.map_append, List.map_append, h.keys, hleast.keys]
  refine ⟨hsettled, hfound.nodup, hkeys,
    List.forall_mem_append.mpr ⟨h.positive, hleast.positive hfound.positive⟩,
    fun b hb p c hp hc => ?_, fun array harray g hg => ?_⟩
  · rcases h.settled b hb with hnew | ⟨p', c', hp', hc', -⟩
    · rw [lookup_append_of_none (h.lookup_isNone hnew.1)] at hp
      rw [lookup_append_of_none (h.lookup_isNone hnew.2)] at hc
      exact met_of_least hnew (hsettled b hb) hleast hp hc
    · obtain ⟨y, hy⟩ := h.exists_lookup hp'
      obtain ⟨y', hy'⟩ := h.exists_lookup hc'
      obtain rfl := Option.some.inj (hp.symm.trans (lookup_append_of_some hy))
      obtain rfl := Option.some.inj (hc.symm.trans (lookup_append_of_some hy'))
      exact h.met b hb _ _ hy hy'
  · rw [List.map_append] at harray
    rcases List.mem_append.mp harray with harray | harray
    · exact h.coprime array harray g fun other r hother hr => hg other r hother (lookup_append_of_some hr)
    · refine hleast.coprime g fun y hy => hg y.1 y.2 ?_ ?_
      · have hconnected : ∀ a ∈ periods.map (·.1), Relation.EqvGen (Linked balances) start a := by
          rw [hleast.keys]
          exact List.forall_mem_map.mpr hfound.connected
        exact (Relation.EqvGen.symm _ _ (hconnected array harray)).trans _ _ _
          (hconnected y.1 (List.mem_map_of_mem hy))
      · refine lookup_of_mem ?_ (List.mem_append_right _ hy)
        rw [hkeys]
        exact hfound.nodup

/-! ### Arrays with a rate -/

/-- What holds of the arrays of all balances holds of whatever the balances give a rate. -/
private theorem keys_of_apply {P : Nat → Prop} {rates rates' : Rates Rat} {b : Balance}
    (hb : P b.producer ∧ P b.consumer) (hrates : ∀ r ∈ rates, P r.1) (h : b.apply rates = .ok rates') :
    ∀ r ∈ rates', P r.1 := by
  rcases Balance.apply_cases h with ⟨rfl, -⟩ | ⟨entry, hentry, rfl⟩
  · exact hrates
  · refine List.forall_mem_append.mpr ⟨hrates, List.forall_mem_singleton.mpr ?_⟩
    cases hentry with
    | producer _ _ => exact hb.1
    | consumer _ _ => exact hb.2

private theorem keys_of_spread {P : Nat → Prop} (hbalances : ∀ b ∈ balances, P b.producer ∧ P b.consumer)
    {rounds : Nat} {rates rates' : Rates Rat} (hrates : ∀ r ∈ rates, P r.1)
    (h : Balance.spread balances rounds rates = .ok rates') : ∀ r ∈ rates', P r.1 := by
  induction rounds generalizing rates with
  | zero =>
    cases h
    exact hrates
  | succ rounds ih =>
    rw [Balance.spread] at h
    obtain ⟨rates₁, hround, hrest⟩ := Outcome.bind_eq_ok h
    refine ih ?_ hrest
    exact Outcome.foldlM_induction (P := fun rates : Rates Rat => ∀ r ∈ rates, P r.1)
      (fun b hb _ _ hbefore happly => keys_of_apply (hbalances b hb) hbefore happly) hrates hround

private theorem keys_of_connect {P : Nat → Prop} (hbalances : ∀ b ∈ balances, P b.producer ∧ P b.consumer)
    {array : Nat} (harray : P array) {known' : Rates Rat × Rates Int} (hknown : ∀ r ∈ known.1, P r.1)
    (h : connect balances known array = .ok known') : ∀ r ∈ known'.1, P r.1 := by
  unfold connect at h
  split at h
  · cases h
    exact hknown
  · obtain ⟨rates, hspread, h⟩ := Outcome.bind_eq_ok h
    obtain ⟨periods, -, h⟩ := Outcome.bind_eq_ok h
    cases h
    refine keys_of_spread hbalances ?_ hspread
    exact List.forall_mem_append.mpr ⟨hknown, List.forall_mem_singleton.mpr harray⟩

/-- A failure that is not because of the balances, or rightly blames them. -/
private def Blames (balances : List Balance) (e : Failure) : Prop :=
  (∃ fault, e = .fault fault) ∨ Unsolvable balances

private theorem connect_ensures (hratio : ∀ b ∈ balances, 0 < b.ratio) (h : Balanced balances known)
    (array : Nat) :
    Outcome.Ensures (connect balances known array) (fun known' => Balanced balances known' ∧
      array ∈ known'.2.map (·.1) ∧ known.2.map (·.1) ⊆ known'.2.map (·.1)) (Blames balances) := by
  unfold connect
  split
  · rename_i hfound
    rw [lookup_isSome_iff, ← h.keys] at hfound
    exact Outcome.ensures_ok ⟨h, hfound, List.Subset.refl _⟩
  · rename_i hnew
    have hcomponent : Component balances known.1 array [(array, 1)] :=
      Balance.component_start h.nodup (Option.not_isSome_iff_eq_none.mp hnew)
    have hspread := Balance.spread_ensures h.settled hratio (balances.length + 1) ⟨_, rfl, hcomponent⟩
    refine Outcome.Ensures.bind (P := fun rates => ∃ found, rates = known.1 ++ found ∧
      Component balances known.1 array found ∧ Settled balances rates) ⟨fun rates hrates => ?_,
        fun e he => .inr (hspread.2 e he)⟩ ?_
    · obtain ⟨found, rfl, hfound⟩ := hspread.1 rates hrates
      exact ⟨found, rfl, hfound, Balance.settled_of_spread hratio
        (Nat.lt_succ_of_le List.countP_le_length) hrates⟩
    · rintro _ ⟨found, rfl, hfound, hsettled⟩
      rw [List.drop_left]
      cases hperiods : integral found with
      | error fault =>
        refine ⟨nofun, fun e he => .inl ⟨fault, ?_⟩⟩
        cases he
        rfl
      | ok periods =>
        obtain ⟨factor, hleast⟩ := exists_least_of_integral hfound.positive
          (List.ne_nil_of_mem hfound.started) hperiods
        refine Outcome.ensures_ok ⟨h.extend hfound hsettled hleast, ?_, ?_⟩
        · rw [List.map_append, hleast.keys]
          exact List.mem_append_right _ (List.mem_map_of_mem hfound.started)
        · rw [List.map_append]
          exact List.subset_append_left _ _

private theorem foldlM_ensures (hratio : ∀ b ∈ balances, 0 < b.ratio) (h : Balanced balances known)
    (arrays : List Nat) :
    Outcome.Ensures (arrays.foldlM (connect balances) known) (fun known' => Balanced balances known' ∧
      arrays ⊆ known'.2.map (·.1) ∧ known.2.map (·.1) ⊆ known'.2.map (·.1)) (Blames balances) := by
  induction arrays generalizing known with
  | nil => exact Outcome.ensures_ok ⟨h, List.nil_subset _, List.Subset.refl _⟩
  | cons array rest ih =>
    rw [List.foldlM_cons]
    refine (connect_ensures hratio h array).bind fun known₁ hfirst => ?_
    obtain ⟨hbalanced, hmem, hsubset⟩ := hfirst
    refine (ih hbalanced).imp fun known' hrest => ?_
    obtain ⟨hbalanced', hall, hsubset'⟩ := hrest
    exact ⟨hbalanced', List.cons_subset.mpr ⟨hsubset' hmem, hall⟩, List.Subset.trans hsubset hsubset'⟩

end Rates

/-! ### Streams of a model -/

/-- A steady statement reads a stream at a multiple of its own flow index, so that the stream advances `ratio` times
as fast as the array that the statement writes. -/
structure Dependency.Advances (m : Model) (steady : List Bool) (d : Dependency) (producer consumer : Nat)
    (ratio : Int) : Prop where
  steady : steady.getD d.consumer false = true
  streams : ∃ source sink, ∃ writer reader : Statement,
    m.statements[d.producer]? = some writer ∧ writer.flow = some source ∧ writer.array = producer ∧
    m.statements[d.consumer]? = some reader ∧ reader.flow = some sink ∧ reader.array = consumer ∧
    Rates.flowRatio d sink source = some ratio
  positive : 0 < ratio

namespace Model

/-- The balance equation `producer = ratio * consumer` of some dependency. -/
def Balances (m : Model) (steady : List Bool) (producer consumer : Nat) (ratio : Int) : Prop :=
  ∃ d ∈ m.dependencies, d.Advances m steady producer consumer ratio

/-- An array that some statement writes along a flow. -/
def Streams (m : Model) (array : Nat) : Prop :=
  ∃ s ∈ m.statements, ∃ flow, s.array = array ∧ s.flow = some flow

def Connected (m : Model) (steady : List Bool) : Nat → Nat → Prop :=
  Relation.EqvGen fun producer consumer => ∃ ratio, m.Balances steady producer consumer ratio

end Model

namespace Rates

variable {m : Model} {steady : List Bool} {d : Dependency}

theorem advances_of_balance {b : Balance} (h : balance m steady d = .ok (some b)) :
    d.Advances m steady b.producer b.consumer b.ratio := by
  unfold balance at h
  split at h
  · rename_i writer reader hwriter hreader
    split at h
    · rename_i source sink hsource hsink
      split at h
      · cases h
      · rename_i hsteady
        cases hflow : flowRatio d sink source with
        | none =>
          rw [hflow] at h
          cases h
        | some ratio =>
          rw [hflow] at h
          simp only at h
          split at h
          · cases h
          · split at h
            · rename_i hpositive
              cases h
              exact ⟨by simpa using hsteady, ⟨source, sink, writer, reader, hwriter, hsource, rfl, hreader,
                hsink, rfl, hflow⟩, hpositive⟩
            · cases h
    · cases h
  · cases h

theorem balance_of_advances {producer consumer : Nat} {ratio : Int}
    (h : d.Advances m steady producer consumer ratio) :
    ∃ names, balance m steady d = .ok (some ⟨producer, consumer, ratio, names⟩) := by
  obtain ⟨hsteady, ⟨source, sink, writer, reader, hwriter, hsource, rfl, hreader, hsink, rfl, hflow⟩,
    hpositive⟩ := h
  refine ⟨[writer.name, reader.name], ?_⟩
  unfold balance
  rw [hwriter, hreader]
  simp only [hsource, hsink, hsteady, hflow]
  simp [hpositive, not_lt.mpr hpositive.le]
  rfl

/-- A single dependency is never found to be inconsistent. -/
theorem balance_error {e : Failure} (h : balance m steady d = .error e) (names : List String) :
    e ≠ .infeasible names "inconsistent stream rates" := by
  unfold balance at h
  repeat' split at h
  all_goals cases h
  all_goals simp

theorem balances_iff {found : List (Option Balance)} (h : m.dependencies.mapM (balance m steady) = .ok found)
    {producer consumer : Nat} {ratio : Int} : m.Balances steady producer consumer ratio ↔
      ∃ b ∈ found.filterMap id, b.producer = producer ∧ b.consumer = consumer ∧ b.ratio = ratio := by
  have hfound := Outcome.forall₂_of_mapM h
  constructor
  · rintro ⟨d, hd, hadvances⟩
    obtain ⟨names, hbalance⟩ := balance_of_advances hadvances
    obtain ⟨entry, hentry, hd⟩ := Outcome.exists_of_forall₂ hfound.flip hd
    obtain rfl := Except.ok.inj (hbalance.symm.trans hd)
    exact ⟨_, List.mem_filterMap.mpr ⟨_, hentry, rfl⟩, rfl, rfl, rfl⟩
  · rintro ⟨b, hb, rfl, rfl, rfl⟩
    obtain ⟨_, hentry, rfl⟩ := List.mem_filterMap.mp hb
    obtain ⟨d, hd, hbalance⟩ := Outcome.exists_of_forall₂ hfound hentry
    exact ⟨d, hd, advances_of_balance hbalance⟩

private theorem ratio_pos {found : List (Option Balance)}
    (h : m.dependencies.mapM (balance m steady) = .ok found) : ∀ b ∈ found.filterMap id, 0 < b.ratio := by
  intro b hb
  obtain ⟨d, -, hadvances⟩ := (balances_iff h).mpr ⟨b, hb, rfl, rfl, rfl⟩
  exact hadvances.positive

/-- The arrays of steady statements, from which all balances are reached. -/
private def steadyArrays (m : Model) (steady : List Bool) : List Nat :=
  (m.statements.zip steady).filterMap fun (s, isSteady) => if isSteady then some s.array else none

private theorem mem_steadyArrays {array : Nat} : array ∈ steadyArrays m steady ↔
    ∃ (i : Nat) (s : Statement), m.statements[i]? = some s ∧ steady[i]? = some true ∧ s.array = array := by
  refine List.mem_filterMap.trans ⟨?_, ?_⟩
  · rintro ⟨⟨s, flag⟩, hmem, hsome⟩
    cases flag with
    | false => cases hsome
    | true =>
      obtain ⟨i, hi⟩ := List.getElem?_of_mem hmem
      obtain ⟨hs, hsteady⟩ := List.getElem?_zip_eq_some.mp hi
      exact ⟨i, s, hs, hsteady, Option.some.inj hsome⟩
  · rintro ⟨i, s, hs, hsteady, rfl⟩
    exact ⟨(s, true), List.mem_of_getElem? (List.getElem?_zip_eq_some.mpr ⟨hs, hsteady⟩), rfl⟩

private theorem exists_balanced {rates : Rates Int} (h : ofModel m steady = .ok rates) :
    ∃ found known, m.dependencies.mapM (balance m steady) = .ok found ∧
      (steadyArrays m steady).foldlM (connect (found.filterMap id)) ([], []) = .ok known ∧
      Balanced (found.filterMap id) known ∧ known.2 = rates ∧
      steadyArrays m steady ⊆ rates.map (·.1) := by
  simp only [ofModel] at h
  obtain ⟨found, hfound, h⟩ := Outcome.bind_eq_ok h
  obtain ⟨known, hknown, h⟩ := Outcome.bind_eq_ok h
  obtain ⟨hbalanced, hall, -⟩ := (foldlM_ensures (ratio_pos hfound) (balanced_nil _) _).1 known hknown
  cases h
  exact ⟨found, known, hfound, hknown, hbalanced, rfl, hall⟩

/-- Only streams have a rate, when only streams belong to the steady state. -/
theorem streams_of_ofModel {rates : Rates Int} (h : ofModel m steady = .ok rates)
    (hsteady : ∀ (i : Nat) (s : Statement), m.statements[i]? = some s → steady[i]? = some true →
      ∃ flow, s.flow = some flow) {array : Nat} {rate : Int} (hrate : rates.lookup array = some rate) :
    m.Streams array := by
  obtain ⟨found, known, hfound, hknown, hbalanced, rfl, -⟩ := exists_balanced h
  have hends : ∀ b ∈ found.filterMap id, m.Streams b.producer ∧ m.Streams b.consumer := by
    intro b hb
    obtain ⟨d, -, hadvances⟩ := (balances_iff hfound).mpr ⟨b, hb, rfl, rfl, rfl⟩
    obtain ⟨source, sink, writer, reader, hwriter, hsource, hproducer, hreader, hsink, hconsumer, -⟩ :=
      hadvances.streams
    exact ⟨⟨writer, List.mem_of_getElem? hwriter, source, hproducer, hsource⟩,
      ⟨reader, List.mem_of_getElem? hreader, sink, hconsumer, hsink⟩⟩
  have hstart : ∀ array ∈ steadyArrays m steady, m.Streams array := by
    intro array harray
    obtain ⟨i, s, hs, hflag, rfl⟩ := mem_steadyArrays.mp harray
    obtain ⟨flow, hflow⟩ := hsteady i s hs hflag
    exact ⟨s, List.mem_of_getElem? hs, flow, rfl, hflow⟩
  have hall : ∀ r ∈ known.1, m.Streams r.1 :=
    Outcome.foldlM_induction (P := fun known : Rates Rat × Rates Int => ∀ r ∈ known.1, m.Streams r.1)
      (fun array harray _ _ hbefore hconnect =>
        keys_of_connect hends (hstart array harray) hbefore hconnect) (by simp) hknown
  have hmem : array ∈ known.1.map (·.1) := by
    rw [← hbalanced.keys, ← lookup_isSome_iff, hrate]
    rfl
  obtain ⟨r, hr, rfl⟩ := List.mem_map.mp hmem
  exact hall r hr

/-- Every array of the steady state has a positive rate. -/
theorem ofModel_spec {rates : Rates Int} (h : ofModel m steady = .ok rates) :
    (∀ r ∈ rates, 0 < r.2) ∧ ∀ (i : Nat) (s : Statement), m.statements[i]? = some s → steady[i]? = some true →
      ∃ rate, rates.lookup s.array = some rate := by
  obtain ⟨_, known, -, -, hbalanced, rfl, hall⟩ := exists_balanced h
  refine ⟨hbalanced.positive, fun i s hs hsteady => ?_⟩
  have hmem : s.array ∈ steadyArrays m steady := mem_steadyArrays.mpr ⟨i, s, hs, hsteady, rfl⟩
  exact Option.isSome_iff_exists.mp (lookup_isSome_iff.mpr (hall hmem))

/-- The balances of steady statements hold, also when they are between arrays of which one was reached late. -/
theorem balance_met {rates : Rates Int} (h : ofModel m steady = .ok rates) {producer consumer : Nat}
    {ratio : Int} (hbalances : m.Balances steady producer consumer ratio) :
    ∃ r r', rates.lookup producer = some r ∧ rates.lookup consumer = some r' ∧ r = ratio * r' := by
  have hrated := (ofModel_spec h).2
  obtain ⟨found, known, hfound, -, hbalanced, rfl, -⟩ := exists_balanced h
  obtain ⟨b, hb, rfl, rfl, rfl⟩ := (balances_iff hfound).mp hbalances
  obtain ⟨d, -, hadvances⟩ := hbalances
  obtain ⟨_, _, _, reader, -, -, -, hreader, -, harray, -⟩ := hadvances.streams
  have hsteady : steady[d.consumer]? = some true := by
    have hget := hadvances.steady
    rw [List.getD_eq_getElem?_getD] at hget
    cases hcases : steady[d.consumer]? with
    | none =>
      rw [hcases] at hget
      cases hget
    | some value =>
      rw [hcases] at hget
      exact congrArg some hget
  obtain ⟨r', hr'⟩ := hrated d.consumer reader hreader hsteady
  rw [harray] at hr'
  rcases hbalanced.settled b hb with ⟨-, hc⟩ | ⟨p, c, hp, -, -⟩
  · rw [hbalanced.lookup_isNone hc] at hr'
    cases hr'
  · obtain ⟨r, hr⟩ := hbalanced.exists_lookup hp
    exact ⟨r, r', hr, hr', hbalanced.met b hb r r' hr hr'⟩

/-- Every steady array has a positive period, and the periods satisfy all balance equations. They are the least to do
so: no number but one divides all periods of arrays that the equations connect. Equations are only found to be
inconsistent when no positive numbers satisfy them. -/
theorem least_balanced (m : Model) (steady : List Bool) :
    (∀ rates, ofModel m steady = .ok rates →
      (∀ (i : Nat) (s : Statement), m.statements[i]? = some s → steady[i]? = some true →
        ∃ r, rates.lookup s.array = some r ∧ 1 ≤ r) ∧
      (∀ producer consumer ratio, m.Balances steady producer consumer ratio →
        ∃ r r', rates.lookup producer = some r ∧ rates.lookup consumer = some r' ∧ r = ratio * r') ∧
      ∀ array r, rates.lookup array = some r → ∀ g : Int,
        (∀ other r', m.Connected steady array other → rates.lookup other = some r' → g ∣ r') → g ∣ 1) ∧
    ∀ names, ofModel m steady = .error (.infeasible names "inconsistent stream rates") →
      ¬ ∃ ρ : Nat → Rat, (∀ array, 0 < ρ array) ∧ ∀ producer consumer ratio,
        m.Balances steady producer consumer ratio → ρ producer = ratio * ρ consumer := by
  refine ⟨fun rates h => ⟨fun i s hs hsteady => ?_, fun producer consumer ratio hbalances =>
    balance_met h hbalances, fun array r hr g hg => ?_⟩, fun names h => ?_⟩
  · obtain ⟨hpositive, hrated⟩ := ofModel_spec h
    obtain ⟨r, hr⟩ := hrated i s hs hsteady
    exact ⟨r, hr, hpositive _ (mem_of_lookup hr)⟩
  · obtain ⟨found, known, hfound, -, hbalanced, rfl, -⟩ := exists_balanced h
    refine hbalanced.coprime array (lookup_isSome_iff.mp (by rw [hr]; rfl)) g fun other r' hother hr' => ?_
    refine hg other r' (Relation.EqvGen.mono ?_ _ _ hother) hr'
    rintro producer consumer ⟨b, hb, rfl, rfl⟩
    exact ⟨b.ratio, (balances_iff hfound).mpr ⟨b, hb, rfl, rfl, rfl⟩⟩
  · simp only [ofModel] at h
    rintro ⟨ρ, hpositive, hρ⟩
    rcases Outcome.bind_eq_error h with hfound | ⟨found, hfound, h⟩
    · obtain ⟨d, -, hd⟩ := Outcome.exists_of_mapM_eq_error hfound
      exact balance_error hd names rfl
    rcases Outcome.bind_eq_error h with hconnect | ⟨known, -, h⟩
    · rcases (foldlM_ensures (ratio_pos hfound) (balanced_nil _) _).2 _ hconnect with ⟨fault, hfault⟩ | hunsolvable
      · cases hfault
      · exact hunsolvable ⟨ρ, hpositive, fun b hb =>
          hρ _ _ _ ((balances_iff hfound).mpr ⟨b, hb, rfl, rfl, rfl⟩)⟩
    · cases h

/-- Three streams. An access is given by the stream that is read, the one that is written and the multiple of the
flow index. -/
private def threeStreams (accesses : List (Nat × Nat × Int)) : Model where
  statements := (List.range 3).map fun k =>
    ⟨"s", .full "s" 1, .constant (.int 0), k, .identity "s" "s" 1, some 0, none⟩
  dependencies := accesses.map fun (producer, consumer, ratio) =>
    ⟨producer, consumer, producer, .ofRows "s" 1 "s" [(Affine.var 1 0).scale ratio]⟩

private def isInconsistent : Except Failure (Rates Int) → Bool
  | .error (.infeasible _ reason) => reason == "inconsistent stream rates"
  | _ => false

private theorem exists_of_isInconsistent {x : Except Failure (Rates Int)} (h : isInconsistent x = true) :
    ∃ names, x = .error (.infeasible names "inconsistent stream rates") := by
  unfold isInconsistent at h
  split at h
  · rename_i names reason
    exact ⟨names, by rw [beq_iff_eq.mp h]⟩
  · cases h

/-- The first balance that is looked at is between arrays which only the second one connects to where the rates
start. A stream that is read at twice and at three times the same index has no rate. -/
theorem least_balanced_threeStreams :
    (∃ rates, ofModel (threeStreams [(1, 2, 3), (0, 1, 2)]) [true, true, true] = .ok rates ∧
      rates = [(0, 6), (1, 3), (2, 1)] ∧
      (threeStreams [(1, 2, 3), (0, 1, 2)]).Balances [true, true, true] 1 2 3 ∧
      (∃ r r', rates.lookup 1 = some r ∧ rates.lookup 2 = some r' ∧ r = 3 * r') ∧
      ∀ g : Int, (∀ other r', (threeStreams [(1, 2, 3), (0, 1, 2)]).Connected [true, true, true] 0 other →
        rates.lookup other = some r' → g ∣ r') → g ∣ 1) ∧
    ∃ names, ofModel (threeStreams [(0, 1, 2), (0, 1, 3)]) [true, true, true] =
        .error (.infeasible names "inconsistent stream rates") ∧
      ¬ ∃ ρ : Nat → Rat, (∀ array, 0 < ρ array) ∧ ∀ producer consumer ratio,
        (threeStreams [(0, 1, 2), (0, 1, 3)]).Balances [true, true, true] producer consumer ratio →
          ρ producer = ratio * ρ consumer := by
  have hrun : (Outcome.passes (ofModel (threeStreams [(1, 2, 3), (0, 1, 2)]) [true, true, true]) fun rates =>
      rates == [(0, 6), (1, 3), (2, 1)]) = true := by decide +kernel
  obtain ⟨rates, hrates, hvalue⟩ := Outcome.exists_of_passes hrun
  have hvalue : rates = [(0, 6), (1, 3), (2, 1)] := beq_iff_eq.mp hvalue
  have hbalances : (threeStreams [(1, 2, 3), (0, 1, 2)]).Balances [true, true, true] 1 2 3 := by
    refine ⟨⟨1, 2, 1, .ofRows "s" 1 "s" [(Affine.var 1 0).scale 3]⟩, List.mem_cons_self, rfl, ?_, by decide⟩
    exact ⟨0, 0, _, _, rfl, rfl, rfl, rfl, rfl, rfl, by decide +kernel⟩
  obtain ⟨-, hmet, hleast⟩ := (least_balanced _ _).1 rates hrates
  obtain ⟨names, herror⟩ := exists_of_isInconsistent
    (x := ofModel (threeStreams [(0, 1, 2), (0, 1, 3)]) [true, true, true]) (by decide +kernel)
  exact ⟨⟨rates, hrates, hvalue, hbalances, hmet 1 2 3 hbalances, hleast 0 6 (by rw [hvalue]; rfl)⟩,
    names, herror, (least_balanced _ _).2 names herror⟩

end Rates

end StreamLoom
