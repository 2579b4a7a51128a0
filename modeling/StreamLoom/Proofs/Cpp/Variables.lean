import StreamLoom.Proofs.Cpp.Calls
import StreamLoom.Proofs.Cpp.Drafting

/-!
# Variables of generated C++

A part of a draft adds statements, which declare variables for what follows. Temporary variables are numbered,
so that no two of them share a name, and all other variables are integers; so no name has two types. What is
known of the variables before a part, and of those that it declares, is known after it.
-/

namespace StreamLoom.Cpp

open Fragment (text)

/-! ### Declarations -/

inductive Declares : Fragment → String × ValueType → Prop
  | declare {type name : String} {τ : ValueType} (start : Fragment) (h : typeName τ = .ok type) :
      Declares (.declare (text type) (text name) start) (name, τ)
  | branch {condition f : Fragment} {first second : List Fragment} {v : String × ValueType}
      (hf : f ∈ first ++ second) (h : Declares f v) : Declares (.branch condition first second) v
  | iterator {start condition step : Fragment} {body : List Fragment} {v : String × ValueType}
      (h : Declares start v) : Declares (.loop start condition step body) v
  | loop {start condition step f : Fragment} {body : List Fragment} {v : String × ValueType}
      (hf : f ∈ body) (h : Declares f v) : Declares (.loop start condition step body) v
  | block {f : Fragment} {body : List Fragment} {v : String × ValueType} (hf : f ∈ body) (h : Declares f v) :
      Declares (.block body) v
  | function {specifier name : String} {type f : Fragment} {parameters body : List Fragment}
      {v : String × ValueType} (hf : f ∈ body) (h : Declares f v) :
      Declares (.function specifier type name parameters body) v

def declared (fs : List Fragment) : Locals := {v | ∃ f ∈ fs, Declares f v}

section

variable {fs gs : List Fragment} {f x y : Fragment}

@[simp] theorem declared_nil : declared [] = ∅ := by
  ext v
  simp [declared]

theorem declared_append : declared (fs ++ gs) = declared fs ∪ declared gs := by
  ext v
  simp [declared, or_and_right, exists_or]

theorem declared_singleton {v : String × ValueType} : v ∈ declared [f] ↔ Declares f v := by
  simp [declared]

@[simp] theorem declared_assign : declared [.assign x y] = ∅ := by
  ext v
  rw [declared_singleton]
  exact iff_of_false (fun h => by cases h) (Set.notMem_empty v)

@[simp] theorem declared_increment : declared [.increment x] = ∅ := by
  ext v
  rw [declared_singleton]
  exact iff_of_false (fun h => by cases h) (Set.notMem_empty v)

theorem typeName_injective {σ τ : ValueType} {type : String} (hσ : typeName σ = .ok type)
    (hτ : typeName τ = .ok type) : σ = τ := by
  cases σ <;> cases hσ
  all_goals cases τ <;> simp_all [typeName]

theorem declared_variable {type name : String} {τ : ValueType} (h : typeName τ = .ok type) :
    declared [.declare (text type) (text name) f] = {(name, τ)} := by
  ext v
  rw [declared_singleton]
  constructor
  · intro hv
    cases hv with
    | declare start hτ => rw [typeName_injective hτ h]; rfl
  · rintro rfl
    exact .declare f h

theorem declared_branch {condition : Fragment} :
    declared [.branch condition fs gs] = declared fs ∪ declared gs := by
  ext v
  rw [declared_singleton, ← declared_append]
  constructor
  · intro h
    cases h with
    | branch hf h => exact ⟨_, hf, h⟩
  · rintro ⟨f, hf, h⟩
    exact .branch hf h

theorem declared_block : declared [.block fs] = declared fs := by
  ext v
  rw [declared_singleton]
  constructor
  · intro h
    cases h with
    | block hf h => exact ⟨_, hf, h⟩
  · rintro ⟨f, hf, h⟩
    exact .block hf h

theorem declared_loop {name : String} {lower upper : Fragment} :
    declared [loopOver (text name) lower upper fs] = {(name, .int)} ∪ declared fs := by
  have hstart : declared [.declare (text "int64_t") (text name) lower] = {(name, .int)} := declared_variable rfl
  ext v
  rw [declared_singleton, ← hstart, Set.mem_union, declared_singleton]
  constructor
  · intro h
    cases h with
    | iterator h => exact .inl h
    | loop hf h => exact .inr ⟨_, hf, h⟩
  · rintro (h | ⟨f, hf, h⟩)
    · exact .iterator h
    · exact .loop hf h

end

/-! ### Names -/

def temporaryName (n : Nat) : String := "tmp" ++ toString n

theorem temporaryName_injective {n n' : Nat} (h : temporaryName n = temporaryName n') : n = n' := by
  have hrepr : n.repr = n'.repr := by simpa [temporaryName] using h
  have hdigits : Nat.toDigits 10 n = Nat.toDigits 10 n' := by rw [← Nat.toList_repr, ← Nat.toList_repr, hrepr]
  rw [← Nat.ofDigitChars_ten_toDigits (n := n), hdigits, Nat.ofDigitChars_ten_toDigits]

/-- A name that no temporary variable has. -/
def IsIterator (name : String) : Prop := ∀ n, name ≠ temporaryName n

theorem isIterator_of_head {name : String} (h : name.toList.head? ≠ some 't') : IsIterator name := by
  rintro n rfl
  simp [temporaryName] at h

theorem isIterator_single (c : Char) : IsIterator (String.singleton c) := by
  intro n h
  have hsecond := congrArg (·.toList[1]?) h
  simp [temporaryName] at hsecond

/-- Some variables are told apart by their names: temporary ones are numbered from one number up to another,
and all others are integers. -/
structure Apart (n n' : Nat) (L : Locals) : Prop where
  le : n ≤ n'
  named : ∀ v ∈ L, (∃ k, n ≤ k ∧ k < n' ∧ v.1 = temporaryName k) ∨ v.2 = .int ∧ IsIterator v.1
  unique : ∀ v ∈ L, ∀ v' ∈ L, v.1 = v'.1 → v = v'

variable {n n' n'' : Nat} {L L' : Locals}

theorem Apart.empty (h : n ≤ n') : Apart n n' ∅ := ⟨h, fun _ hv => hv.elim, fun _ hv => hv.elim⟩

theorem Apart.iterator {name : String} (h : IsIterator name) : Apart n n {(name, .int)} := by
  refine ⟨le_rfl, ?_, ?_⟩
  · rintro _ rfl
    exact .inr ⟨rfl, h⟩
  · rintro _ rfl _ rfl _
    rfl

theorem Apart.temporary (n : Nat) (τ : ValueType) : Apart n (n + 1) {(temporaryName n, τ)} := by
  refine ⟨Nat.le_succ n, ?_, ?_⟩
  · rintro _ rfl
    exact .inl ⟨n, le_rfl, Nat.lt_succ_self n, rfl⟩
  · rintro _ rfl _ rfl _
    rfl

theorem Apart.union (h : Apart n n' L) (h' : Apart n' n'' L') : Apart n n'' (L ∪ L') := by
  have hapart : ∀ v ∈ L, ∀ v' ∈ L', v.1 = v'.1 → v = v' := by
    intro v hv v' hv' hname
    rcases h.named v hv with ⟨k, -, hk, htemporary⟩ | ⟨hint, hiterator⟩
    · rcases h'.named v' hv' with ⟨k', hk', -, htemporary'⟩ | ⟨-, hiterator'⟩
      · have hsame := temporaryName_injective (htemporary.symm.trans (hname.trans htemporary'))
        omega
      · exact absurd (hname.symm.trans htemporary) (hiterator' k)
    · rcases h'.named v' hv' with ⟨k', -, -, htemporary'⟩ | ⟨hint', -⟩
      · exact absurd (hname.trans htemporary') (hiterator k')
      · exact Prod.ext hname (hint.trans hint'.symm)
  refine ⟨h.le.trans h'.le, ?_, ?_⟩
  · rintro v (hv | hv)
    · rcases h.named v hv with ⟨k, hn, hk, hname⟩ | hiterator
      · exact .inl ⟨k, hn, hk.trans_le h'.le, hname⟩
      · exact .inr hiterator
    · rcases h'.named v hv with ⟨k, hn, hk, hname⟩ | hiterator
      · exact .inl ⟨k, h.le.trans hn, hk, hname⟩
      · exact .inr hiterator
  · rintro v (hv | hv) v' (hv' | hv') hname
    · exact h.unique v hv v' hv' hname
    · exact hapart v hv v' hv' hname
    · exact (hapart v' hv' v hv hname.symm).symm
    · exact h'.unique v hv v' hv' hname

/-! ### Statements -/

/-- Some statements whose extremes are checked, given the variables before them, and whose variables are told
apart. -/
structure Sound (model : Model) (Γ : Locals) (n n' : Nat) (fs : List Fragment) : Prop where
  apart : Apart n n' (declared fs)
  checked : ∀ f ∈ fs, Checked model (Γ ∪ declared fs) f

variable {model : Model} {Γ Γ' : Locals} {fs gs : List Fragment} {f x y : Fragment}

theorem sound_nil (h : n ≤ n') : Sound model Γ n n' [] :=
  ⟨declared_nil ▸ .empty h, fun _ hf => absurd hf List.not_mem_nil⟩

theorem Sound.append (h : Sound model Γ n n' fs) (h' : Sound model (Γ ∪ declared fs) n' n'' gs) :
    Sound model Γ n n'' (fs ++ gs) := by
  constructor
  · rw [declared_append]
    exact h.apart.union h'.apart
  · intro f hf
    rw [declared_append, ← Set.union_assoc]
    rcases List.mem_append.mp hf with hf | hf
    · exact (h.checked f hf).mono Set.subset_union_left
    · exact h'.checked f hf

/-- A statement that declares no variable. -/
theorem sound_step (hdeclared : declared [f] = ∅) (hf : Checked model Γ f) (n : Nat) : Sound model Γ n n [f] := by
  constructor
  · rw [hdeclared]
    exact .empty le_rfl
  · rw [List.forall_mem_singleton, hdeclared, Set.union_empty]
    exact hf

theorem Sound.branch (hx : Checked model Γ x) (h : Sound model Γ n n' fs) (h' : Sound model Γ n' n'' gs) :
    Sound model Γ n n'' [.branch x fs gs] := by
  constructor
  · rw [declared_branch]
    exact h.apart.union h'.apart
  · rw [List.forall_mem_singleton, declared_branch]
    refine calls_branch.mpr ⟨hx.mono Set.subset_union_left, fun f hf => ?_, fun f hf => ?_⟩
    · exact (h.checked f hf).mono (Set.union_subset_union_right Γ Set.subset_union_left)
    · exact (h'.checked f hf).mono (Set.union_subset_union_right Γ Set.subset_union_right)

theorem Sound.block (h : Sound model Γ n n' fs) : Sound model Γ n n' [.block fs] := by
  constructor
  · rw [declared_block]
    exact h.apart
  · rw [List.forall_mem_singleton, declared_block]
    exact calls_block.mpr h.checked

theorem Sound.loop {name : String} (hname : IsIterator name) (hx : Plain x) (hy : Plain y)
    (h : Sound model (Γ ∪ {(name, .int)}) n n' fs) : Sound model Γ n n' [loopOver (text name) x y fs] := by
  constructor
  · rw [declared_loop]
    exact (Apart.iterator hname).union h.apart
  · rw [List.forall_mem_singleton, declared_loop, ← Set.union_assoc]
    unfold loopOver
    refine calls_loop.mpr ⟨?_, ?_, calls_increment.mpr (calls_text name), h.checked⟩
    · exact calls_declare.mpr ⟨calls_text _, calls_text name, checked_of_plain hx⟩
    · exact calls_binary.mpr ⟨calls_text name, checked_of_plain hy⟩

/-! ### Parts of a draft -/

section

variable {α β : Type} {part : Drafting α} {d d' : Draft}

/-- When a part of a draft ends well, it has added sound statements, and something is known of its result. -/
def Adds (model : Model) (Γ : Locals) (part : Drafting α) (Q : Locals → α → Prop) : Prop :=
  ∀ d x d', part.from d = (.ok x, d') → ∃ new, d'.statements = d.statements ++ new ∧
    Sound model Γ d.temporaries d'.temporaries new ∧ Q (Γ ∪ declared new) x

variable {Q Q' : Locals → α → Prop} {R : Locals → β → Prop} {g : α → Drafting β} {a : α}

theorem adds_of_gives (h : part.Gives a) (hq : Q Γ a) : Adds model Γ part Q := by
  intro d x d' hrun
  cases (h d).symm.trans hrun
  refine ⟨[], (List.append_nil _).symm, sound_nil le_rfl, ?_⟩
  rw [declared_nil, Set.union_empty]
  exact hq

theorem adds_throw (e : Failure) : Adds model Γ (throw e : Drafting α) Q := by
  intro d x d' hrun
  cases hrun

theorem Adds.bind (h : Adds model Γ part Q) (hg : ∀ Γ' x, Γ ⊆ Γ' → Q Γ' x → Adds model Γ' (g x) R) :
    Adds model Γ (part >>= g) R := by
  intro d y d'' hrun
  obtain ⟨x, d', hpart, hrest⟩ := Outcome.run_bind_cases hrun
  obtain ⟨new, hnew, hsound, hq⟩ := h d x d' hpart
  obtain ⟨new', hnew', hsound', hr⟩ := hg _ x Set.subset_union_left hq d' y d'' hrest
  refine ⟨new ++ new', ?_, hsound.append hsound', ?_⟩
  · rw [hnew', hnew, List.append_assoc]
  · rw [declared_append, ← Set.union_assoc]
    exact hr

theorem Adds.imp (h : Adds model Γ part Q) (himp : ∀ Γ' x, Q Γ' x → Q' Γ' x) : Adds model Γ part Q' := by
  intro d x d' hrun
  obtain ⟨new, hnew, hsound, hq⟩ := h d x d' hrun
  exact ⟨new, hnew, hsound, himp _ x hq⟩

/-- Something else than statements and temporary variables is changed. -/
theorem adds_modify {change : Draft → Draft} (hstatements : ∀ d, (change d).statements = d.statements)
    (htemporaries : ∀ d, (change d).temporaries = d.temporaries) :
    Adds model Γ (modify change : Drafting Unit) fun _ _ => True := by
  intro d x d' hrun
  cases hrun
  exact ⟨[], by simp [hstatements], sound_nil (htemporaries d).ge, trivial⟩

theorem adds_step (hdeclared : declared [f] = ∅) (hf : Checked model Γ f) :
    Adds model Γ (Drafting.add f) fun _ _ => True := by
  intro d x d' hrun
  cases hrun
  exact ⟨[f], rfl, sound_step hdeclared hf _, trivial⟩

/-- What has been added in a scope of its own. -/
theorem sound_of_nested {part : Drafting Unit} {inner : List Fragment} (h : Adds model Γ part fun _ _ => True)
    (hrun : (Drafting.nested part).from d = (.ok inner, d')) :
    d'.statements = d.statements ∧ Sound model Γ d.temporaries d'.temporaries inner := by
  obtain ⟨_, d₁, hget, hrun⟩ := Outcome.run_bind_cases hrun
  cases hget
  obtain ⟨_, d₂, hmodify, hrun⟩ := Outcome.run_bind_cases hrun
  cases hmodify
  obtain ⟨_, d₃, hpart, hrun⟩ := Outcome.run_bind_cases hrun
  obtain ⟨_, d₄, hget, hrun⟩ := Outcome.run_bind_cases hrun
  cases hget
  obtain ⟨_, d₅, hmodify, hrun⟩ := Outcome.run_bind_cases hrun
  cases hmodify
  cases hrun
  obtain ⟨new, hnew, hsound, -⟩ := h _ _ _ hpart
  rw [List.nil_append] at hnew
  rw [hnew]
  exact ⟨rfl, hsound⟩

/-- A single statement is made of what has been added in a scope of its own. -/
theorem adds_of_nested {part : Drafting Unit} {g : List Fragment → Drafting Unit}
    (h : Adds model Γ' part fun _ _ => True)
    (hg : ∀ inner d x d', (g inner).from d = (.ok x, d') → ∃ f, d'.statements = d.statements ++ [f] ∧
      d'.temporaries = d.temporaries ∧
      ∀ n n', Sound model Γ' n n' inner → Sound model Γ n n' [f]) :
    Adds model Γ (Drafting.nested part >>= g) fun _ _ => True := by
  intro d x d' hrun
  obtain ⟨inner, d₁, hnested, hrun⟩ := Outcome.run_bind_cases hrun
  obtain ⟨hstatements, hsound⟩ := sound_of_nested h hnested
  obtain ⟨f, hf, htemporaries, hmade⟩ := hg inner d₁ x d' hrun
  refine ⟨[f], ?_, ?_, trivial⟩
  · rw [hf, hstatements]
  · rw [htemporaries]
    exact hmade _ _ hsound

end

end StreamLoom.Cpp
