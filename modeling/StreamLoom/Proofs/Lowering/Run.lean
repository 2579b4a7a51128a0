import Mathlib.Tactic.LinearCombination
import StreamLoom.Compilation.Basic
import StreamLoom.Proofs.Lowering.Offset
import StreamLoom.Proofs.Nest.Refinement

/-!
# Runs of a machine

A machine runs the nest of the prologue once and the nest of the steady state once per period, and turns
its buffers after each period. A run is a list of steps. What is known between two steps is `Tracks`: the
log of the machine holds, in their order, the points that have been executed, each with the slot of its
element, and a slot holds what was last stored there.
-/

namespace StreamLoom.Lowering

attribute [local instance] Arithmetic.exact

open StreamLoom.System (Solves Over)
open StreamLoom.Nest (Visit Nests Node translated VisitsPhase)

variable {V : Type}

/-! ### Steps -/

inductive Step where
  | visit (steady : Bool) (v : Visit)
  /-- The end of a period. -/
  | turn

/-- The steps of the prologue and of the periods that follow it. -/
def stepsOf (nests : Nests) : Nat → List Step
  | 0 => (Node.executeAll [] nests.prologue).visits.map (.visit false)
  | n + 1 => stepsOf nests n ++
      ((Node.executeAll [] nests.steady).visits.map (.visit true) ++ [.turn])

def Machine.initial (I : Interpretation V) (m : Model) : Machine V where
  buffers number _ := (m.arrays[number]?).elim (I.ofInt 0) fun array => I.zero array.type

/-- A machine whose buffers have been turned at the end of a period. -/
def Machine.turned (σ : Machine V) (m : Model) : Machine V :=
  { σ with
    phases := fun number => (m.arrays[number]?).elim 0 fun array =>
      (layoutOf array).advance (σ.phases number) array.buffer.period
    period := fit (σ.period + 1) }

def Machine.entering (σ : Machine V) (s : Schedule) (steady : Bool) (v : Visit) : Machine V :=
  { σ with
    steady := steady
    current := (v.statement, translated s σ.period v.statement v.index.tail) }

def Step.perform (I : Interpretation V) (m : Model) (s : Schedule) : Step → Running V Unit
  | visit steady v => do
    modify (·.entering s steady v)
    statement m I.target v.statement (v.index.map I.ofInt) steady
  | turn => modify (·.turned m)

def performAll (I : Interpretation V) (m : Model) (s : Schedule) (steps : List Step) : Running V Unit :=
  steps.forM (Step.perform I m s)

/-! ### The statement of a visit -/

section

variable {I : Interpretation V} {m : Model} {i : Nat} {st : Statement} {array : DataArray}
  {σ σ' : Machine V}

theorem Machine.Agrees.store {σ σ' : Machine V} (h : σ'.Agrees σ) (number : Nat) (slot : Int)
    (v : V) : (σ'.store number slot v).Agrees (σ.store number slot v) := by
  obtain ⟨cells, rfl⟩ := h
  exact ⟨cells, rfl⟩

theorem quiet_statementValue {s : Scope V} {array : DataArray} :
    Quiet (statementValue m I.target s array) := by
  unfold statementValue
  split
  · exact .bind (quiet_streamOffset _ _ _) fun _ => fun σ => .refl σ
  · exact quiet_value _ _

/-- A statement that ends well has stored one value, in the slot of its point. -/
theorem from_statement (hst : m.statements[i]? = some st) (harray : m.arrays[st.array]? = some array)
    (hlaid : Laid array) (hturned : Turned array (σ.phases st.array) (σ.period * array.buffer.period))
    (hdims : st.dims = array.rank) {x : List Int} (hx : x.length = st.dims) {steady : Bool}
    (h : (statement m I.target i ((0 :: x).map I.ofInt) steady).from σ = (.ok (), σ')) :
    ∃ v, σ'.Agrees (σ.store st.array
      ((layoutOf array).flatten x (σ.period * array.buffer.period)) v) := by
  unfold statement at h
  rw [hst] at h
  dsimp only at h
  rw [Running.from_bind (gives_arrayAt harray), if_neg (by simp [hx])] at h
  obtain ⟨_, σ₀, hnote, h⟩ := Running.from_bind_cases h
  cases hnote
  obtain ⟨result, σ₁, hvalue, h⟩ := Running.from_bind_cases h
  have hagrees : σ₁.Agrees σ := by
    have hquiet : Quiet (statementValue m I.target ⟨st, ((0 :: x).map I.ofInt).tail, steady⟩ array) :=
      quiet_statementValue
    have hafter := hquiet σ
    rwa [hvalue] at hafter
  obtain ⟨element, σ₂, hconvert, h⟩ := Running.from_bind_cases h
  cases hconvert
  have hoffset : Gives (bufferOffset m I.target st.array (x.map I.ofInt)) σ₁
      (I.ofInt ((layoutOf array).flatten x (σ.period * array.buffer.period))) := by
    obtain ⟨cells, rfl⟩ := hagrees
    exact gives_bufferOffset (σ := { σ with cells := cells }) harray hlaid hturned
      (fun hzero => by rw [hzero, mul_zero]) (hx.trans hdims)
  rw [List.map_cons, List.tail_cons, Running.from_bind hoffset] at h
  obtain ⟨_, σ₂, hstore, h⟩ := Running.from_bind_cases h
  have hstored : σ₂ = σ₁.store st.array ((layoutOf array).flatten x (σ.period * array.buffer.period))
      (I.convert result st.computation.type array.type) := by
    have hslot := congrArg (σ₁.store st.array · (I.convert result st.computation.type array.type))
      (I.toInt_ofInt ((layoutOf array).flatten x (σ.period * array.buffer.period)))
    exact (congrArg Prod.snd hstore).symm.trans hslot
  refine ⟨I.convert result st.computation.type array.type, ?_⟩
  -- Copying the output changes nothing that matters.
  have hrest : σ'.Agrees σ₂ := by
    have hquiet : ∀ offset : V, Quiet (if array.isOutput then do
          let position ← streamOffset I.target array (x.map I.ofInt) steady
          I.target.storeOutput position (← I.target.load st.array offset)
        else pure () : Running V Unit) := fun offset =>
      .ite (.bind (quiet_streamOffset _ _ _) fun _ => .bind (fun σ => .refl σ) fun _ => .pure _) (.pure _)
    have hafter := hquiet (I.ofInt ((layoutOf array).flatten x (σ.period * array.buffer.period))) σ₂
    rwa [h] at hafter
  rw [hstored] at hrest
  exact hrest.trans (hagrees.store _ _ _)

end

/-! ### What is known of a run -/

/-- A slot holds what was last stored there, and until then what it held at the start. -/
structure Machine.Retains (start σ : Machine V) : Prop where
  stored : ∀ before e after, σ.log = before ++ e :: after →
    (∀ e' ∈ after, e'.array = e.array → e'.slot ≠ e.slot) → σ.buffers e.array e.slot = e.value
  untouched : ∀ number slot, (∀ e ∈ σ.log, e.array = number → e.slot ≠ slot) →
    σ.buffers number slot = start.buffers number slot

namespace Machine.Retains

variable {start σ : Machine V}

private theorem stored_store (h : start.Retains σ) (number : Nat) (slot : Int) (v : V)
    {before after : List (Stored V)} {e : Stored V} (hlog : (σ.store number slot v).log = before ++ e :: after)
    (hafter : ∀ e' ∈ after, e'.array = e.array → e'.slot ≠ e.slot) :
    (σ.store number slot v).buffers e.array e.slot = e.value := by
  simp only [Machine.store] at hlog ⊢
  rcases List.eq_nil_or_concat after with rfl | ⟨after, last, rfl⟩
  · obtain ⟨-, heq⟩ := List.append_inj' hlog rfl
    obtain ⟨rfl, -⟩ := List.cons.inj heq
    simp
  · rw [List.concat_eq_append, ← List.cons_append, ← List.append_assoc] at hlog
    obtain ⟨hbefore, heq⟩ := List.append_inj' hlog rfl
    obtain ⟨rfl, -⟩ := List.cons.inj heq
    have hkept := h.stored before e after hbefore fun e' he' => hafter e' (by simp [he'])
    by_cases harray : number = e.array
    · subst harray
      have hslot : slot ≠ e.slot := hafter ⟨σ.current.1, σ.current.2, e.array, slot, v⟩ (by simp) rfl
      rw [Function.update_self, Function.update_of_ne (Ne.symm hslot)]
      exact hkept
    · rw [Function.update_of_ne (Ne.symm harray)]
      exact hkept

private theorem untouched_store (h : start.Retains σ) (number : Nat) (slot : Int) (v : V) {number' : Nat}
    {slot' : Int} (hlog : ∀ e ∈ (σ.store number slot v).log, e.array = number' → e.slot ≠ slot') :
    (σ.store number slot v).buffers number' slot' = start.buffers number' slot' := by
  simp only [Machine.store, List.mem_append, List.mem_singleton] at hlog ⊢
  rw [← h.untouched number' slot' fun e he => hlog e (.inl he)]
  by_cases harray : number = number'
  · subst harray
    have hslot : slot ≠ slot' := hlog _ (.inr rfl) rfl
    rw [Function.update_self, Function.update_of_ne (Ne.symm hslot)]
  · rw [Function.update_of_ne (Ne.symm harray)]

theorem store (h : start.Retains σ) (number : Nat) (slot : Int) (v : V) :
    start.Retains (σ.store number slot v) :=
  ⟨fun _ _ _ hlog hafter => h.stored_store number slot v hlog hafter,
    fun _ _ hlog => h.untouched_store number slot v hlog⟩

end Machine.Retains

/-- The visits of some steps, each with the periods that have been completed before it. -/
def dated : Int → List Step → List (Int × Bool × Visit)
  | _, [] => []
  | k, .visit steady v :: rest => (k, steady, v) :: dated k rest
  | k, .turn :: rest => dated (k + 1) rest

/-- The point that a visit executes, among all periods. -/
def pointOf (s : Schedule) (visit : Int × Bool × Visit) : Nat × List Int :=
  (visit.2.2.statement, translated s visit.1 visit.2.2.statement visit.2.2.index.tail)

/-- A visit belongs to its phase, and periods follow the prologue. -/
def Belongs (m : Model) (s : Schedule) : Int × Bool × Visit → Prop
  | (k, false, v) => k = 0 ∧ VisitsPhase m s.prologue v
  | (k, true, v) => 0 ≤ k ∧ VisitsPhase m s.steady v

private theorem dated_visits (k : Int) (steady : Bool) (vs : List Visit) (rest : List Step) :
    dated k (vs.map (.visit steady) ++ rest) = vs.map (fun v => (k, steady, v)) ++ dated k rest := by
  induction vs with
  | nil => rfl
  | cons v vs ih => rw [List.map_cons, List.map_cons, List.cons_append, List.cons_append, dated, ih]

theorem translated_zero (s : Schedule) (i : Nat) (x : List Int) : translated s 0 i x = x := by
  have hid : (fun t : Int => t + 0 * s.period i) = id := by
    funext t
    simp
  rw [translated, hid, List.modify_id]

/-- The steps of a run execute what its nests do. -/
theorem map_pointOf_steps (s : Schedule) (nests : Nests) (n : Nat) (rest : List Step) :
    (dated 0 (stepsOf nests n ++ rest)).map (pointOf s) =
      nests.executed s n ++ (dated n rest).map (pointOf s) := by
  induction n generalizing rest with
  | zero =>
    rw [stepsOf, dated_visits, List.map_append, List.map_map]
    congr 1
    refine List.map_congr_left fun v _ => ?_
    simp only [Function.comp, pointOf, translated_zero]
  | succ n ih =>
    rw [stepsOf, List.append_assoc, List.append_assoc, ih, dated_visits, List.singleton_append, dated,
      List.map_append, List.map_map, Nests.executed, List.append_assoc, Nat.cast_succ]
    rfl

theorem belongs_of_steps {m : Model} {s : Schedule} {nests : Nests}
    (hearly : ∀ v ∈ (Node.executeAll [] nests.prologue).visits, VisitsPhase m s.prologue v)
    (hlate : ∀ v ∈ (Node.executeAll [] nests.steady).visits, VisitsPhase m s.steady v) (n : Nat)
    {rest : List Step} (hrest : ∀ e ∈ dated n rest, Belongs m s e) :
    ∀ e ∈ dated 0 (stepsOf nests n ++ rest), Belongs m s e := by
  induction n generalizing rest with
  | zero =>
    intro e he
    rw [stepsOf, dated_visits, List.mem_append, List.mem_map] at he
    rcases he with ⟨v, hv, rfl⟩ | he
    · exact ⟨rfl, hearly v hv⟩
    · exact hrest e he
  | succ n ih =>
    rw [stepsOf, List.append_assoc, List.append_assoc]
    refine ih fun e he => ?_
    rw [dated_visits, List.mem_append, List.mem_map, List.singleton_append, dated] at he
    rcases he with ⟨v, hv, rfl⟩ | he
    · exact ⟨by omega, hlate v hv⟩
    · exact hrest e (by rwa [Nat.cast_succ])

/-- What a run relies on: buffers have been laid out, and the elements that a steady statement writes
advance with the buffer of its array. -/
structure Arranged (m : Model) (s : Schedule) : Prop where
  consistent : s.Consistent m
  home : ∀ (i : Nat) (st : Statement), m.statements[i]? = some st → ∃ array, m.arrays[st.array]? = some array ∧
    st.dims = array.rank ∧ Laid array
  carried : ∀ (i : Nat) (st : Statement) (flow : Nat) (p : Placement) (array : DataArray),
    m.statements[i]? = some st → s.Late i st flow p →
    m.arrays[st.array]? = some array →
    s.period i * (layoutOf array).strides.getD flow 0 = array.buffer.period * (layoutOf array).slice

/-- The log of a machine is what the visits before the remaining steps have stored. -/
structure Tracks (I : Interpretation V) (m : Model) (s : Schedule) (points : List (Nat × List Int))
    (σ : Machine V) (rest : List Step) : Prop where
  order : σ.log.map (fun e => (e.statement, e.point)) ++ (dated σ.period rest).map (pointOf s) = points
  belongs : ∀ e ∈ dated σ.period rest, Belongs m s e
  turned : ∀ (number : Nat) (array : DataArray), m.arrays[number]? = some array →
    Turned array (σ.phases number) (σ.period * array.buffer.period)
  logged : ∀ e ∈ σ.log, ∃ st array, m.statements[e.statement]? = some st ∧ st.array = e.array ∧
    m.arrays[e.array]? = some array ∧ e.slot = (layoutOf array).flatten e.point 0
  retains : (Machine.initial I m).Retains σ

section

variable {m : Model} {s : Schedule} {points : List (Nat × List Int)} {σ σ' : Machine V} {rest : List Step}
  {k : Int} {steady : Bool} {v : Visit}

theorem Arranged.visited (h : Arranged m s) (hv : Belongs m s (k, steady, v)) :
    ∃ st x, m.statements[v.statement]? = some st ∧ v.index = 0 :: x ∧ x.length = st.dims ∧
      (steady = true → ∃ flow p, s.Late v.statement st flow p ∧ s.flow v.statement = flow) := by
  cases steady with
  | false =>
    obtain ⟨-, i, p, hp, x, rfl, hlength, -⟩ := hv
    obtain ⟨st, hst, hearly⟩ := h.consistent.early i p hp
    rw [Placement.dims, hearly.domain, Schedule.dims_earlyDomain] at hlength
    exact ⟨st, x, hst, rfl, hlength, by simp⟩
  | true =>
    obtain ⟨-, i, p, hp, x, rfl, hlength, -⟩ := hv
    obtain ⟨st, flow, hst, hlate⟩ := h.consistent.late i p hp
    rw [hlate.dims_eq] at hlength
    refine ⟨st, x, hst, rfl, hlength, fun _ => ⟨flow, p, hlate, ?_⟩⟩
    rw [h.consistent.flows i st hst, hlate.flows, Option.getD_some]

/-- What a statement of the steady state writes advances with its buffer. -/
theorem Arranged.flatten_translated (h : Arranged m s) {i : Nat} {st : Statement} {flow : Nat} {p : Placement}
    {array : DataArray} (hst : m.statements[i]? = some st) (hlate : s.Late i st flow p) (hflow : s.flow i = flow)
    (harray : m.arrays[st.array]? = some array) {x : List Int} (hlength : x.length = st.dims) (k : Int) :
    (layoutOf array).flatten x (k * array.buffer.period) =
      (layoutOf array).flatten (translated s k i x) 0 := by
  have hcarried := h.carried i st flow p array hst hlate harray
  rw [flatten_eq_iff_dvd, translated, hflow, dot_modify (by rw [hlength]; exact hlate.inside)]
  refine ⟨0, ?_⟩
  linear_combination (-k) * hcarried

/-- A visit stores into the slot that its element has among all periods. -/
theorem Arranged.flatten_visited (h : Arranged m s) (hv : Belongs m s (k, steady, v)) {st : Statement}
    (hst : m.statements[v.statement]? = some st) {array : DataArray}
    (harray : m.arrays[st.array]? = some array) :
    (layoutOf array).flatten v.index.tail (k * array.buffer.period) =
      (layoutOf array).flatten (translated s k v.statement v.index.tail) 0 := by
  obtain ⟨st', x, hst', hindex, hlength, hlate⟩ := h.visited hv
  rw [hst] at hst'
  obtain rfl := Option.some.inj hst'
  cases steady with
  | false =>
    obtain ⟨rfl, -⟩ := hv
    rw [translated_zero, zero_mul]
  | true =>
    obtain ⟨flow, p, hlate, hflow⟩ := hlate rfl
    exact h.flatten_translated hst hlate hflow harray (by rw [hindex, List.tail_cons, hlength]) k

variable {I : Interpretation V}

private theorem Tracks.visit (h : Arranged m s) (ht : Tracks I m s points σ (.visit steady v :: rest))
    (hrun : ((Step.visit steady v).perform I m s).from σ = (.ok (), σ')) : Tracks I m s points σ' rest := by
  have hbelongs := ht.belongs (σ.period, steady, v) List.mem_cons_self
  obtain ⟨st, x, hst, hindex, hlength, -⟩ := h.visited hbelongs
  obtain ⟨array, harray, hdims, hlaid⟩ := h.home _ _ hst
  have hslot := h.flatten_visited hbelongs hst harray
  obtain ⟨_, σ₁, henter, hrun⟩ := Running.from_bind_cases hrun
  obtain rfl : σ.entering s steady v = σ₁ := congrArg Prod.snd henter
  rw [hindex] at hrun
  obtain ⟨value, cells, rfl⟩ := from_statement (σ := σ.entering s steady v) hst harray hlaid
    (ht.turned _ _ harray) hdims hlength hrun
  rw [hindex, List.tail_cons] at hslot
  refine ⟨?_, ?_, ht.turned, ?_, ?_⟩
  · rw [← ht.order]
    simp [Machine.store, Machine.entering, dated, pointOf]
  · exact fun e he => ht.belongs e (List.mem_cons_of_mem _ he)
  · intro e he
    rcases List.mem_append.mp he with he | he
    · exact ht.logged e he
    · obtain rfl := List.mem_singleton.mp he
      refine ⟨st, array, hst, rfl, harray, ?_⟩
      change _ = (layoutOf array).flatten (translated s σ.period v.statement v.index.tail) 0
      rw [hindex, List.tail_cons, ← hslot]
      rfl
  · have hretains : (Machine.initial I m).Retains (σ.entering s steady v) :=
      ⟨ht.retains.stored, ht.retains.untouched⟩
    have hstored := hretains.store st.array
      ((layoutOf array).flatten x ((σ.entering s steady v).period * array.buffer.period)) value
    exact ⟨hstored.stored, hstored.untouched⟩

private theorem Tracks.turn (ht : Tracks I m s points σ (.turn :: rest)) :
    Tracks I m s points (σ.turned m) rest := by
  refine ⟨ht.order, ht.belongs, ?_, ht.logged, ht.retains.stored, ht.retains.untouched⟩
  intro number array harray
  have hturned := (ht.turned number array harray).advance array.buffer.period
  simp only [Machine.turned, harray, Option.elim_some, Arithmetic.fit_exact]
  rwa [add_mul, one_mul]

/-- A step that ends well keeps what is known of a run. -/
theorem Tracks.step (h : Arranged m s) {step : Step} (ht : Tracks I m s points σ (step :: rest))
    (hrun : (step.perform I m s).from σ = (.ok (), σ')) : Tracks I m s points σ' rest := by
  cases step with
  | visit steady v => exact ht.visit h hrun
  | turn =>
    obtain rfl : σ.turned m = σ' := congrArg Prod.snd hrun
    exact ht.turn

/-- Steps that end well keep what is known of a run. -/
theorem Tracks.steps (h : Arranged m s) {before : List Step} (ht : Tracks I m s points σ (before ++ rest))
    (hrun : (performAll I m s before).from σ = (.ok (), σ')) : Tracks I m s points σ' rest := by
  induction before generalizing σ with
  | nil =>
    obtain rfl : σ = σ' := congrArg Prod.snd hrun
    exact ht
  | cons step before ih =>
    obtain ⟨_, σ₁, hstep, hrun⟩ := Running.from_bind_cases hrun
    exact ih (ht.step h hstep) hrun

theorem tracks_initial (I : Interpretation V) {nests : Nests}
    (hearly : ∀ v ∈ (Node.executeAll [] nests.prologue).visits, VisitsPhase m s.prologue v)
    (hlate : ∀ v ∈ (Node.executeAll [] nests.steady).visits, VisitsPhase m s.steady v) (n : Nat) :
    Tracks I m s (nests.executed s n) (Machine.initial I m) (stepsOf nests n) := by
  refine ⟨?_, ?_, ?_, by simp [Machine.initial], ?_⟩
  · have hpoints := map_pointOf_steps s nests n []
    rw [List.append_nil] at hpoints
    simpa [Machine.initial, dated] using hpoints
  · have hbelongs : ∀ e ∈ dated 0 (stepsOf nests n ++ []), Belongs m s e :=
      belongs_of_steps hearly hlate n (by simp [dated])
    rwa [List.append_nil] at hbelongs
  · intro number array harray
    simp [Turned, Machine.initial]
  · constructor
    · intro before e after hlog
      simp [Machine.initial] at hlog
    · exact fun _ _ _ => rfl

end

end StreamLoom.Lowering
