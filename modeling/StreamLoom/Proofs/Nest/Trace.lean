import Mathlib.Algebra.Order.Ring.Int
import Mathlib.Data.List.Forall2
import Mathlib.Data.List.Pairwise
import StreamLoom.Nest.Execution

/-!
# Traces

An execution is described by which visits it makes and by the order in which it makes them. Both are
put together from the parts of the execution: the visits of two parts are those of either, and they are
in order when each part is and when everything in the first part precedes everything in the second.
-/

namespace StreamLoom.Nest

attribute [local instance] Arithmetic.exact

variable {α β : Type}

/-- An execution ends with a result, makes the visits that a predicate describes, and makes them in the
order of a relation. -/
structure Trace.Makes (t : Trace α) (a : α) (P : Visit → Prop) (R : Visit → Visit → Prop) : Prop where
  result : t.result = .ok a
  visits : ∀ v, v ∈ t.visits ↔ P v
  ordered : t.visits.Pairwise R

namespace Trace.Makes

variable {t : Trace α} {a : α} {P Q : Visit → Prop} {R S : Visit → Visit → Prop}

theorem congr (h : t.Makes a P R) (hiff : ∀ v, P v ↔ Q v) : t.Makes a Q R :=
  ⟨h.result, fun v => (h.visits v).trans (hiff v), h.ordered⟩

theorem imp (h : t.Makes a P R) (himp : ∀ v w, P v → P w → R v w → S v w) : t.Makes a P S := by
  refine ⟨h.result, h.visits, h.ordered.imp_of_mem fun {v w} hv hw hvw => ?_⟩
  exact himp v w ((h.visits v).mp hv) ((h.visits w).mp hw) hvw

protected theorem pure (a : α) (R : Visit → Visit → Prop) :
    (pure a : Trace α).Makes a (fun _ => False) R := by
  refine ⟨rfl, fun v => ?_, List.Pairwise.nil⟩
  change v ∈ ([] : List Visit) ↔ False
  simp

theorem emit (v : Visit) (R : Visit → Visit → Prop) : (Trace.emit v).Makes () (· = v) R :=
  ⟨rfl, fun _ => List.mem_singleton, List.pairwise_singleton R v⟩

protected theorem bind (h : t.Makes a P R) {f : α → Trace β} {b : β} (hf : (f a).Makes b Q R)
    (hbetween : ∀ v w, P v → Q w → R v w) : (t >>= f).Makes b (fun v => P v ∨ Q v) R := by
  have hbind : t >>= f = ⟨t.visits ++ (f a).visits, (f a).result⟩ := by
    obtain ⟨visits, result⟩ := t
    obtain rfl : result = .ok a := h.result
    rfl
  rw [hbind]
  refine ⟨hf.result, fun v => ?_, ?_⟩
  · rw [List.mem_append, h.visits, hf.visits]
  · refine List.pairwise_append.mpr ⟨h.ordered, hf.ordered, fun v hv w hw => ?_⟩
    exact hbetween v w ((h.visits v).mp hv) ((hf.visits w).mp hw)

/-- What is done after an execution that makes no visits. -/
theorem after {u : Trace β} {b : β} {f : β → Trace α} (hu : u = ⟨[], .ok b⟩) (h : (f b).Makes a P R) :
    (u >>= f).Makes a P R := by
  rw [hu]
  exact h

/-- What returns a result after an execution. -/
theorem returning (h : t.Makes a P R) (b : β) : (t >>= fun _ => pure b).Makes b P R :=
  (h.bind (Makes.pure b R) fun _ _ _ hfalse => hfalse.elim).congr fun v => by simp

/-- A loop over consecutive values makes the visits that its body does for any of them. -/
theorem forValues {body : Int → Trace Unit} {P : Int → Visit → Prop} (count : Nat) (lo : Int)
    (hbody : ∀ x, lo ≤ x → x < lo + count → (body x).Makes () (P x) R)
    (hbetween : ∀ x y v w, x < y → P x v → P y w → R v w) :
    (Trace.forValues body count lo).Makes () (fun v => ∃ x, lo ≤ x ∧ x < lo + count ∧ P x v) R := by
  induction count generalizing lo with
  | zero =>
    refine (Makes.pure () R).congr fun v => ⟨False.elim, ?_⟩
    rintro ⟨x, hle, hlt, -⟩
    rw [Nat.cast_zero, add_zero] at hlt
    omega
  | succ count ih =>
    have hfirst := hbody lo le_rfl (by omega)
    have hrest := ih (lo + 1) fun x hle hlt => hbody x (by omega) (by push_cast at *; omega)
    refine (hfirst.bind hrest ?_).congr fun v => ?_
    · rintro v w hv ⟨x, hle, -, hw⟩
      exact hbetween lo x v w (by omega) hv hw
    · constructor
      · rintro (hv | ⟨x, hle, hlt, hv⟩)
        · exact ⟨lo, le_rfl, by push_cast; omega, hv⟩
        · exact ⟨x, by omega, by push_cast; omega, hv⟩
      · rintro ⟨x, hle, hlt, hv⟩
        by_cases hx : x = lo
        · exact .inl (hx ▸ hv)
        · exact .inr ⟨x, by omega, by push_cast at *; omega, hv⟩

end Trace.Makes

/-! ### Nodes -/

namespace Node

variable {env : Env} {P : Visit → Prop} {R : Visit → Visit → Prop}

theorem executeAll_singleton {node : Node} (h : (node.execute env).Makes env P R) :
    (executeAll env [node]).Makes () P R := by
  rw [executeAll]
  exact (h.bind (f := fun env => executeAll env []) (Trace.Makes.pure () R)
    fun _ _ _ hfalse => hfalse.elim).congr fun v => by simp

/-- Nodes that leave the variables alone make the visits of each of them. A node may be left out where
there is nothing to visit. -/
theorem executeAll_options {ι : Type} {options : List (Option Node)} {items : List ι}
    {P : ι → Visit → Prop}
    (h : List.Forall₂ (fun item option => option.elim (∀ v, ¬ P item v) fun node =>
      (node.execute env).Makes env (P item) R) items options)
    (hbetween : items.Pairwise fun i j => ∀ v w, P i v → P j w → R v w) :
    (executeAll env (options.filterMap id)).Makes () (fun v => ∃ i ∈ items, P i v) R := by
  induction h with
  | nil =>
    rw [List.filterMap_nil, executeAll]
    exact (Trace.Makes.pure () R).congr fun v => by simp
  | @cons item option items options hoption _ ih =>
    obtain ⟨hfirst, hrest⟩ := List.pairwise_cons.mp hbetween
    cases option with
    | none =>
      refine (ih hrest).congr fun v => ?_
      simp only [List.mem_cons, exists_eq_or_imp, or_iff_right (hoption v)]
    | some node =>
      rw [List.filterMap_cons_some (f := id) (a := some node) rfl, executeAll]
      refine (Trace.Makes.bind hoption (f := fun env => executeAll env (options.filterMap id)) (ih hrest)
        ?_).congr fun v => by simp
      rintro v w hv ⟨j, hj, hw⟩
      exact hfirst j hj v w hv hw

theorem executeAll_nodes {ι : Type} {nodes : List Node} {items : List ι} {P : ι → Visit → Prop}
    (h : List.Forall₂ (fun item node => (node.execute env).Makes env (P item) R) items nodes)
    (hbetween : items.Pairwise fun i j => ∀ v w, P i v → P j w → R v w) :
    (executeAll env nodes).Makes () (fun v => ∃ i ∈ items, P i v) R := by
  have hoptions : (executeAll env ((nodes.map some).filterMap id)).Makes () (fun v => ∃ i ∈ items, P i v) R :=
    executeAll_options (List.forall₂_map_right_iff.mpr h) hbetween
  rwa [List.filterMap_map, Function.id_comp, List.filterMap_some] at hoptions

theorem execute_block {body : List Node} (h : (executeAll env body).Makes () P R) :
    ((block body).execute env).Makes env P R := by
  rw [execute]
  exact h.returning env

theorem executeAll_assign {name : String} {value : Expr} {x : Int} (hvalue : value.eval env = .ok x)
    {rest : List Node} (h : (executeAll ((name, x) :: env) rest).Makes () P R) :
    (executeAll env (assign name value :: rest)).Makes () P R := by
  rw [executeAll]
  refine Trace.Makes.after (f := fun env => executeAll env rest) (b := (name, x) :: env) ?_ h
  rw [execute, hvalue]
  rfl

/-- A loop makes the visits of its body for all values between its bounds. -/
theorem execute_loop {iterator : String} {lower upper : Expr} {lo hi : Int} {body : List Node}
    (hlower : lower.eval env = .ok lo) (hupper : upper.eval env = .ok hi) {P : Int → Visit → Prop}
    (hbody : ∀ x, lo ≤ x → x ≤ hi → (executeAll ((iterator, x) :: env) body).Makes () (P x) R)
    (hbetween : ∀ x y v w, x < y → P x v → P y w → R v w) :
    ((loop iterator lower upper body).execute env).Makes env
      (fun v => ∃ x, lo ≤ x ∧ x ≤ hi ∧ P x v) R := by
  rw [execute]
  refine Trace.Makes.after (b := lo) (by rw [hlower]; rfl) ?_
  refine Trace.Makes.after (b := hi) (by rw [hupper]; rfl) ?_
  have hloop := Trace.Makes.forValues (hi - lo + 1).toNat lo
    (fun x hle hlt => hbody x hle (by omega)) hbetween
  refine (hloop.returning env).congr fun v => ⟨?_, ?_⟩
  · rintro ⟨x, hle, hlt, hv⟩
    exact ⟨x, hle, by omega, hv⟩
  · rintro ⟨x, hle, hge, hv⟩
    exact ⟨x, hle, by omega, hv⟩

/-- A guarded body makes its visits when the conditions hold, and none otherwise. -/
theorem execute_guarded {conditions : List Condition} {body : List Node} {b : Bool}
    (hconditions : Condition.allHold env conditions = .ok b)
    (h : b = true → (executeAll env body).Makes () P R) :
    ((guarded conditions body).execute env).Makes env (fun v => b = true ∧ P v) R := by
  rw [execute]
  refine Trace.Makes.after (b := b) (by rw [hconditions]; rfl) ?_
  cases b with
  | true => exact ((h rfl).returning env).congr fun v => by simp
  | false => exact (Trace.Makes.pure env R).congr fun v => by simp

end Node

end StreamLoom.Nest
