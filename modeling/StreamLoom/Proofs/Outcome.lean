import Mathlib.Data.List.Forall2
import StreamLoom.Report

/-!
# Outcomes

What can be said of a computation that succeeded is that each of its steps did. The lemmas here take
such a computation apart, one bind, one traversal or one fold at a time, so that no later proof has to
look at how failures are passed on.

A stage also makes records. They never influence how it ends, but they are part of what it is run on,
so `Stage.Yields` leaves open what was recorded before.
-/

namespace StreamLoom

/-! ### Results that may be errors -/

namespace Outcome

variable {ε α β : Type}

theorem bind_eq_ok {x : Except ε α} {f : α → Except ε β} {b : β} (h : x >>= f = .ok b) :
    ∃ a, x = .ok a ∧ f a = .ok b := by
  cases x with
  | error e => cases h
  | ok a => exact ⟨a, rfl, h⟩

theorem bind_eq_error {x : Except ε α} {f : α → Except ε β} {e : ε} (h : x >>= f = .error e) :
    x = .error e ∨ ∃ a, x = .ok a ∧ f a = .error e := by
  cases x with
  | error e' =>
    cases h
    exact .inl rfl
  | ok a => exact .inr ⟨a, rfl, h⟩

theorem map_eq_ok {x : Except ε α} {f : α → β} {b : β} (h : f <$> x = .ok b) :
    ∃ a, x = .ok a ∧ f a = b := by
  cases x with
  | error e => cases h
  | ok a => exact ⟨a, rfl, Except.ok.inj h⟩

theorem mapError_eq_ok {ε' : Type} {x : Except ε α} {f : ε → ε'} {a : α}
    (h : x.mapError f = .ok a) : x = .ok a := by
  cases x with
  | error e => cases h
  | ok b =>
    cases h
    rfl

/-- Whether a computation succeeds, with a result that passes a test. -/
def passes (x : Except ε α) (test : α → Bool) : Bool :=
  match x with
  | .ok a => test a
  | .error _ => false

theorem exists_of_passes {x : Except ε α} {test : α → Bool} (h : passes x test = true) :
    ∃ a, x = .ok a ∧ test a = true := by
  cases x with
  | error e => cases h
  | ok a => exact ⟨a, rfl, h⟩

theorem forall₂_of_mapM {f : α → Except ε β} {xs : List α} {ys : List β} (h : xs.mapM f = .ok ys) :
    List.Forall₂ (fun x y => f x = .ok y) xs ys := by
  induction xs generalizing ys with
  | nil =>
    rw [List.mapM_nil] at h
    cases h
    exact .nil
  | cons x xs ih =>
    rw [List.mapM_cons] at h
    obtain ⟨y, hy, hrest⟩ := bind_eq_ok h
    obtain ⟨ys', hys', hpure⟩ := bind_eq_ok hrest
    cases hpure
    exact .cons hy (ih hys')

theorem mapM_eq_ok {f : α → Except ε β} {xs : List α} {ys : List β}
    (h : List.Forall₂ (fun x y => f x = .ok y) xs ys) : xs.mapM f = .ok ys := by
  induction h with
  | nil => rfl
  | cons hxy _ ih =>
    rw [List.mapM_cons, hxy, ih]
    rfl

theorem forM_eq_ok {f : α → Except ε Unit} {xs : List α} (h : xs.forM f = .ok ()) :
    ∀ x ∈ xs, f x = .ok () := by
  induction xs with
  | nil => simp
  | cons x xs ih =>
    rw [List.forM] at h
    obtain ⟨_, hx, hrest⟩ := bind_eq_ok h
    intro x' hx'
    rcases List.mem_cons.mp hx' with rfl | hx'
    · exact hx
    · exact ih hrest x' hx'

theorem forM_ok {f : α → Except ε Unit} {xs : List α} (h : ∀ x ∈ xs, f x = .ok ()) : xs.forM f = .ok () := by
  induction xs with
  | nil => rfl
  | cons x xs ih =>
    rw [List.forM, h x List.mem_cons_self]
    exact ih fun x' hx' => h x' (List.mem_cons_of_mem _ hx')

/-- A property that every step of a fold passes on holds at its end. -/
theorem foldlM_induction {P : β → Prop} {f : β → α → Except ε β} {xs : List α} {b b' : β}
    (hstep : ∀ x ∈ xs, ∀ b b', P b → f b x = .ok b' → P b') (hb : P b)
    (h : xs.foldlM f b = .ok b') : P b' := by
  induction xs generalizing b with
  | nil =>
    cases h
    exact hb
  | cons x xs ih =>
    rw [List.foldlM_cons] at h
    obtain ⟨b₁, hfirst, hrest⟩ := bind_eq_ok h
    exact ih (fun y hy => hstep y (by simp [hy])) (hstep x (by simp) b b₁ hb hfirst) hrest

theorem exists_of_mapM_eq_error {f : α → Except ε β} {xs : List α} {e : ε}
    (h : xs.mapM f = .error e) : ∃ x ∈ xs, f x = .error e := by
  induction xs with
  | nil => cases h
  | cons x xs ih =>
    rw [List.mapM_cons] at h
    rcases bind_eq_error h with hx | ⟨y, -, h⟩
    · exact ⟨x, by simp, hx⟩
    · rcases bind_eq_error h with hrest | ⟨ys, -, h⟩
      · obtain ⟨x', hx', herror⟩ := ih hrest
        exact ⟨x', by simp [hx'], herror⟩
      · cases h

theorem exists_of_forM_eq_error {f : α → Except ε Unit} {xs : List α} {e : ε}
    (h : xs.forM f = .error e) : ∃ x ∈ xs, f x = .error e := by
  induction xs with
  | nil => cases h
  | cons x xs ih =>
    rw [List.forM] at h
    rcases bind_eq_error h with hx | ⟨_, -, hrest⟩
    · exact ⟨x, List.mem_cons_self, hx⟩
    · obtain ⟨x', hx', herror⟩ := ih hrest
      exact ⟨x', List.mem_cons_of_mem _ hx', herror⟩

theorem exists_of_foldlM_eq_error {f : β → α → Except ε β} {xs : List α} {b : β} {e : ε}
    (h : xs.foldlM f b = .error e) : ∃ x ∈ xs, ∃ b', f b' x = .error e := by
  induction xs generalizing b with
  | nil => cases h
  | cons x xs ih =>
    rw [List.foldlM_cons] at h
    rcases bind_eq_error h with hx | ⟨b', -, hrest⟩
    · exact ⟨x, List.mem_cons_self, b, hx⟩
    · obtain ⟨x', hx', herror⟩ := ih hrest
      exact ⟨x', List.mem_cons_of_mem _ hx', herror⟩

theorem mapError_eq_error {ε' : Type} {x : Except ε α} {f : ε → ε'} {e : ε'}
    (h : x.mapError f = .error e) : ∃ e', x = .error e' ∧ f e' = e := by
  cases x with
  | error e' =>
    cases h
    exact ⟨e', rfl, rfl⟩
  | ok a => cases h

/-- What a computation returns satisfies one condition, and what it fails with another. -/
def Ensures (x : Except ε α) (P : α → Prop) (Q : ε → Prop) : Prop :=
  (∀ a, x = .ok a → P a) ∧ ∀ e, x = .error e → Q e

theorem ensures_ok {P : α → Prop} {Q : ε → Prop} {a : α} (h : P a) : Ensures (.ok a) P Q := by
  refine ⟨fun a' ha => ?_, nofun⟩
  cases ha
  exact h

theorem Ensures.imp {P P' : α → Prop} {Q : ε → Prop} {x : Except ε α} (h : Ensures x P Q)
    (himp : ∀ a, P a → P' a) : Ensures x P' Q :=
  ⟨fun a ha => himp a (h.1 a ha), h.2⟩

theorem Ensures.bind {P : α → Prop} {R : β → Prop} {Q : ε → Prop} {x : Except ε α}
    {f : α → Except ε β} (hx : Ensures x P Q) (hf : ∀ a, P a → Ensures (f a) R Q) :
    Ensures (x >>= f) R Q := by
  cases x with
  | error e =>
    refine ⟨nofun, fun e' he => ?_⟩
    cases he
    exact hx.2 e rfl
  | ok a => exact hf a (hx.1 a rfl)

theorem ensures_foldlM {P : β → Prop} {Q : ε → Prop} {f : β → α → Except ε β} {xs : List α} {b : β}
    (hstep : ∀ x ∈ xs, ∀ b, P b → Ensures (f b x) P Q) (hb : P b) : Ensures (xs.foldlM f b) P Q := by
  induction xs generalizing b with
  | nil => exact ensures_ok hb
  | cons x xs ih =>
    rw [List.foldlM_cons]
    exact (hstep x (by simp) b hb).bind fun b' hb' => ih (fun y hy => hstep y (by simp [hy])) hb'

/-- A fold whose steps only raise a measure ends no lower than any of its steps. -/
theorem foldlM_reaches {f : β → α → Except ε β} {g : β → Int}
    (hraises : ∀ b x b', f b x = .ok b' → g b ≤ g b') {xs : List α} {b b' : β}
    (h : xs.foldlM f b = .ok b') :
    g b ≤ g b' ∧ ∀ x ∈ xs, ∃ c c', f c x = .ok c' ∧ g c' ≤ g b' := by
  induction xs generalizing b with
  | nil =>
    cases h
    exact ⟨Int.le_refl _, by simp⟩
  | cons x xs ih =>
    rw [List.foldlM_cons] at h
    obtain ⟨b₁, hfirst, hrest⟩ := bind_eq_ok h
    obtain ⟨hle, hreaches⟩ := ih hrest
    refine ⟨Int.le_trans (hraises b x b₁ hfirst) hle, fun y hy => ?_⟩
    rcases List.mem_cons.mp hy with rfl | hy
    · exact ⟨b, b₁, hfirst, hle⟩
    · exact hreaches y hy

end Outcome

theorem Outcome.exists_of_forall₂ {α β : Type} {R : α → β → Prop} {xs : List α} {ys : List β}
    (h : List.Forall₂ R xs ys) {y : β} (hy : y ∈ ys) : ∃ x ∈ xs, R x y := by
  induction h with
  | nil => simp at hy
  | cons hxy _ ih =>
    rcases List.mem_cons.mp hy with rfl | hy
    · exact ⟨_, by simp, hxy⟩
    · obtain ⟨x, hx, hrel⟩ := ih hy
      exact ⟨x, by simp [hx], hrel⟩

theorem Outcome.getElem?_of_forall₂ {α β : Type} {R : α → β → Prop} {xs : List α} {ys : List β}
    (h : List.Forall₂ R xs ys) {i : Nat} {x : α} (hx : xs[i]? = some x) :
    ∃ y, ys[i]? = some y ∧ R x y := by
  induction h generalizing i with
  | nil => simp at hx
  | cons hxy _ ih =>
    cases i with
    | zero =>
      obtain rfl : _ = x := by simpa using hx
      exact ⟨_, by simp, hxy⟩
    | succ i =>
      obtain ⟨y, hy, hrel⟩ := ih (by simpa using hx)
      exact ⟨y, by simpa using hy, hrel⟩

/-- What ends well over a state was preceded by a good end of its first part. -/
theorem Outcome.run_bind_cases {ε σ α β : Type} {x : ExceptT ε (StateM σ) α}
    {f : α → ExceptT ε (StateM σ) β} {s s' : σ} {b : β}
    (h : StateT.run (ExceptT.run (x >>= f)) s = (.ok b, s')) :
    ∃ a s₁, StateT.run (ExceptT.run x) s = (.ok a, s₁) ∧
      StateT.run (ExceptT.run (f a)) s₁ = (.ok b, s') := by
  rw [ExceptT.run_bind, StateT.run_bind] at h
  cases hx : StateT.run (ExceptT.run x) s with
  | mk result s₁ =>
    rw [hx] at h
    cases result with
    | error e => cases h
    | ok a => exact ⟨a, s₁, rfl, h⟩

/-- What fails over a state does so in its first part, or after the first part has ended well. -/
theorem Outcome.run_bind_error {ε σ α β : Type} {x : ExceptT ε (StateM σ) α}
    {f : α → ExceptT ε (StateM σ) β} {s s' : σ} {e : ε}
    (h : StateT.run (ExceptT.run (x >>= f)) s = (.error e, s')) :
    StateT.run (ExceptT.run x) s = (.error e, s') ∨
      ∃ a s₁, StateT.run (ExceptT.run x) s = (.ok a, s₁) ∧
        StateT.run (ExceptT.run (f a)) s₁ = (.error e, s') := by
  rw [ExceptT.run_bind, StateT.run_bind] at h
  cases hx : StateT.run (ExceptT.run x) s with
  | mk result s₁ =>
    rw [hx] at h
    cases result with
    | error e' =>
      cases h
      exact .inl rfl
    | ok a => exact .inr ⟨a, s₁, rfl, h⟩

/-! ### Stages -/

namespace Stage

variable {α β : Type}

/-- A stage ends in a value, whatever was recorded before. -/
def Yields (s : Stage α) (a : α) : Prop := ∃ records, (StateT.run (ExceptT.run s) records).1 = .ok a

/-- A stage ends in a failure, whatever was recorded before. -/
def Fails (s : Stage α) (e : Failure) : Prop :=
  ∃ records, (StateT.run (ExceptT.run s) records).1 = .error e

theorem yields_of_execute {s : Stage α} {a : α} (h : s.execute.1 = .ok a) : s.Yields a := ⟨[], h⟩

theorem yields_bind {s : Stage α} {f : α → Stage β} {b : β} (h : (s >>= f).Yields b) :
    ∃ a, s.Yields a ∧ (f a).Yields b := by
  obtain ⟨records, hrun⟩ := h
  obtain ⟨a, records', hs, hf⟩ := Outcome.run_bind_cases (Prod.ext hrun rfl)
  exact ⟨a, ⟨records, congrArg Prod.fst hs⟩, ⟨records', congrArg Prod.fst hf⟩⟩

theorem yields_pure {a b : α} (h : Yields (pure a) b) : a = b := by
  obtain ⟨records, hrun⟩ := h
  exact Except.ok.inj hrun

theorem not_yields_throw {e : Failure} {a : α} : ¬ Yields (throw e) a := by
  rintro ⟨records, hrun⟩
  cases hrun

theorem yields_ofExcept {x : Except Failure α} {a : α} (h : (ofExcept x).Yields a) : x = .ok a := by
  obtain ⟨records, hrun⟩ := h
  exact hrun

theorem yields_ofGuarded {x : Except Fault α} {a : α} (h : (ofGuarded x).Yields a) : x = .ok a :=
  Outcome.mapError_eq_ok (yields_ofExcept h)

theorem yields_mapM {f : α → Stage β} {xs : List α} {ys : List β} (h : (xs.mapM f).Yields ys) :
    List.Forall₂ (fun x y => (f x).Yields y) xs ys := by
  induction xs generalizing ys with
  | nil =>
    rw [List.mapM_nil] at h
    obtain rfl := yields_pure h
    exact .nil
  | cons x xs ih =>
    rw [List.mapM_cons] at h
    obtain ⟨y, hy, hrest⟩ := yields_bind h
    obtain ⟨ys', hys', hpure⟩ := yields_bind hrest
    obtain rfl := yields_pure hpure
    exact .cons hy (ih hys')

theorem fails_of_execute {s : Stage α} {e : Failure} (h : s.execute.1 = .error e) : s.Fails e := ⟨[], h⟩

theorem fails_bind {s : Stage α} {f : α → Stage β} {e : Failure} (h : (s >>= f).Fails e) :
    s.Fails e ∨ ∃ a, s.Yields a ∧ (f a).Fails e := by
  obtain ⟨records, hrun⟩ := h
  rcases Outcome.run_bind_error (Prod.ext hrun rfl) with hs | ⟨a, records', hs, hf⟩
  · exact .inl ⟨records, congrArg Prod.fst hs⟩
  · exact .inr ⟨a, ⟨records, congrArg Prod.fst hs⟩, ⟨records', congrArg Prod.fst hf⟩⟩

theorem not_fails_pure {a : α} {e : Failure} : ¬ Fails (pure a) e := by
  rintro ⟨records, hrun⟩
  cases hrun

theorem not_fails_debug {message : String} {e : Failure} : ¬ Fails (debug message) e := by
  rintro ⟨records, hrun⟩
  cases hrun

theorem fails_ofExcept {x : Except Failure α} {e : Failure} (h : (ofExcept x).Fails e) : x = .error e := by
  obtain ⟨records, hrun⟩ := h
  exact hrun

theorem fails_ofGuarded {x : Except Fault α} {e : Failure} (h : (ofGuarded x).Fails e) :
    ∃ fault, e = .fault fault := by
  obtain ⟨fault, -, rfl⟩ := Outcome.mapError_eq_error (fails_ofExcept h)
  exact ⟨fault, rfl⟩

theorem not_fails_forM {f : α → Stage Unit} {e : Failure} (hf : ∀ a, ¬ (f a).Fails e) (xs : List α) :
    ¬ (xs.forM f).Fails e := by
  induction xs with
  | nil => exact not_fails_pure
  | cons x xs ih =>
    intro h
    rcases fails_bind h with hx | ⟨_, -, hrest⟩
    · exact hf x hx
    · exact ih hrest

end Stage

end StreamLoom
