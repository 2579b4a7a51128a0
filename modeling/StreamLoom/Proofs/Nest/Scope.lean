import Mathlib.Data.Set.Insert
import StreamLoom.Nest.Generation
import StreamLoom.Proofs.Outcome

/-!
# Scopes of loop nests

The variables of a loop nest are iterators: a loop binds its iterator in its body, and an assignment binds one
in what follows it. The index of each statement consists of numbers and of variables in scope, whatever the
bounds of the loops and the conditions are.
-/

namespace StreamLoom.Nest

def iterators : Set String := {name | name = timeName ∨ ∃ dim, name = iteratorName dim}

theorem iteratorName_mem (dim : Nat) : iteratorName dim ∈ iterators := .inr ⟨dim, rfl⟩

/-- A number, or a variable in scope. -/
def Expr.Atom (names : Set String) (e : Expr) : Prop := (∃ n, e = .int n) ∨ ∃ v ∈ names, e = Expr.name v

theorem Expr.Atom.mono {names names' : Set String} {e : Expr} (h : e.Atom names) (hsubset : names ⊆ names') :
    e.Atom names' :=
  h.imp_right fun ⟨v, hv, he⟩ => ⟨v, hsubset hv, he⟩

namespace Node

/-- The names that a node binds in what follows it. -/
def bound : Node → Set String
  | assign name _ => {name}
  | _ => ∅

mutual

/-- Only iterators are bound, and statements are indexed by what is in scope. -/
def Scoped (names : Set String) : Node → Prop
  | block body => ScopedAll names body
  | loop iterator _ _ body => iterator ∈ iterators ∧ ScopedAll (names ∪ {iterator}) body
  | guarded _ body => ScopedAll names body
  | assign name _ => name ∈ iterators
  | visit _ _ index => ∀ e ∈ index, e.Atom names

def ScopedAll (names : Set String) : List Node → Prop
  | [] => True
  | n :: rest => n.Scoped names ∧ ScopedAll (names ∪ n.bound) rest

end

mutual

theorem Scoped.mono {names names' : Set String} (hsubset : names ⊆ names') :
    (n : Node) → n.Scoped names → n.Scoped names'
  | block body, h => ScopedAll.mono hsubset body h
  | loop iterator _ _ body, h =>
    ⟨h.1, ScopedAll.mono (Set.union_subset_union_left {iterator} hsubset) body h.2⟩
  | guarded _ body, h => ScopedAll.mono hsubset body h
  | assign _ _, h => h
  | visit _ _ _, h => fun e he => (h e he).mono hsubset

theorem ScopedAll.mono {names names' : Set String} (hsubset : names ⊆ names') :
    (nodes : List Node) → ScopedAll names nodes → ScopedAll names' nodes
  | [], h => h
  | n :: rest, h =>
    ⟨Scoped.mono hsubset n h.1, ScopedAll.mono (Set.union_subset_union_left n.bound hsubset) rest h.2⟩

end

theorem scopedAll_of_forall {names : Set String} {nodes : List Node} (h : ∀ n ∈ nodes, n.Scoped names) :
    ScopedAll names nodes := by
  induction nodes generalizing names with
  | nil => trivial
  | cons n nodes ih =>
    obtain ⟨hn, hnodes⟩ := List.forall_mem_cons.mp h
    exact ⟨hn, ih fun n' hn' => Scoped.mono Set.subset_union_left n' (hnodes n' hn')⟩

end Node

open Node (ScopedAll Scoped scopedAll_of_forall)

/-! ### Statements -/

theorem mem_inner {p : Placement} {d : Nat} (hd : d < p.dims) (hcarrier : p.carrier ≠ some d) : d ∈ p.inner := by
  simp only [Placement.inner, Placement.innerOf, List.mem_filter, List.mem_range, hd, true_and]
  simpa using hcarrier

variable {names : Set String}

private theorem scoped_visit {statement dims : Nat} {name : String}
    (h : ∀ d < dims, iteratorName d ∈ names) :
    (Node.visit statement name
      (.int 0 :: (List.range dims).map fun d => Expr.name (iteratorName d))).Scoped names := by
  show ∀ e ∈ _, _
  rw [List.forall_mem_cons, List.forall_mem_map]
  exact ⟨.inl ⟨0, rfl⟩, fun d hd => .inr ⟨_, h d (List.mem_range.mp hd), rfl⟩⟩

variable [Arithmetic]

/-- Loops are scoped if what is inside of them is, as soon as their iterators are in scope. -/
theorem scoped_innerLoops {domain : PointSet} {innermost node : Node} {outer inner : List Nat}
    (h : innerLoops domain innermost outer inner = .ok node)
    (hinnermost : ∀ names', names ⊆ names' → (∀ d ∈ inner, iteratorName d ∈ names') → innermost.Scoped names') :
    node.Scoped names := by
  induction inner generalizing outer node names with
  | nil =>
    cases h
    exact hinnermost names (Set.Subset.refl names) fun d hd => absurd hd List.not_mem_nil
  | cons d rest ih =>
    obtain ⟨body, hbody, h⟩ := Outcome.bind_eq_ok h
    obtain ⟨⟨lower, upper⟩, -, h⟩ := Outcome.bind_eq_ok h
    cases h
    refine ⟨iteratorName_mem d, ih hbody fun names' hsubset hrest => ?_, trivial⟩
    apply hinnermost names' (Set.subset_union_left.trans hsubset)
    exact List.forall_mem_cons.mpr ⟨hsubset (.inr rfl), hrest⟩

theorem scoped_memberNode {m : Member} {first last : Int} {node : Node} (h : memberNode m first last = .ok node) :
    node.Scoped names := by
  unfold memberNode at h
  dsimp only at h
  obtain ⟨inner, hinner, h⟩ := Outcome.bind_eq_ok h
  have hloops := Outcome.mapError_eq_ok hinner
  have hconditional : ∀ (conditions : List Condition) (body : List Node), ScopedAll names body →
      (if conditions.isEmpty then Node.block body else .guarded conditions body).Scoped names := by
    intro conditions body hbody
    split
    · exact hbody
    · exact hbody
  cases h
  apply hconditional
  cases hcarrier : m.placement.carrier with
  | none =>
    rw [hcarrier] at hloops
    refine ⟨scoped_innerLoops hloops fun names' _ hnames => scoped_visit fun d hd => ?_, trivial⟩
    exact hnames d (mem_inner hd (by simp [hcarrier]))
  | some c =>
    rw [hcarrier] at hloops
    refine ⟨iteratorName_mem c, scoped_innerLoops hloops fun names' hsubset hnames => scoped_visit fun d hd => ?_,
      trivial⟩
    by_cases hd' : d = c
    · exact hd' ▸ hsubset (.inr rfl)
    · exact hnames d (mem_inner hd (by simpa [hcarrier] using Ne.symm hd'))

/-! ### Phases -/

theorem scoped_timeLoop {ms : List Member} {first last : Int} {body : List Node}
    (h : ms.mapM (memberNode · first last) = .ok body) : (timeLoop first last body).Scoped names := by
  refine ⟨.inl rfl, scopedAll_of_forall fun n hn => ?_⟩
  obtain ⟨m, -, hm⟩ := Outcome.exists_of_forall₂ (Outcome.forall₂_of_mapM h) hn
  exact scoped_memberNode hm

theorem scopedAll_wholeLoop {ms : List Member} {nodes : List Node} (h : wholeLoop ms = .ok nodes) :
    ScopedAll names nodes := by
  unfold wholeLoop at h
  split at h
  · cases h
    trivial
  · obtain ⟨body, hbody, h⟩ := Outcome.bind_eq_ok h
    cases h
    exact ⟨scoped_timeLoop hbody, trivial⟩

theorem scopedAll_segments {ms : List Member} {nodes : List Node} (h : segments ms = .ok nodes) :
    ScopedAll names nodes := by
  unfold segments at h
  obtain ⟨loops, hloops, h⟩ := Outcome.bind_eq_ok h
  cases h
  refine scopedAll_of_forall fun n hn => ?_
  obtain ⟨option, hoption, rfl⟩ := List.mem_filterMap.mp hn
  obtain ⟨⟨first, next⟩, -, hloop⟩ := Outcome.exists_of_forall₂ (Outcome.forall₂_of_mapM hloops) hoption
  obtain ⟨body, hbody, hloop⟩ := Outcome.bind_eq_ok hloop
  split at hloop
  · cases hloop
  · cases hloop
    exact scoped_timeLoop hbody

theorem scopedAll_ofPhase {m : Model} {phase : Phase} {options : NestOptions} {nodes : List Node}
    (h : ofPhase m phase options = .ok nodes) : ScopedAll names nodes := by
  unfold ofPhase at h
  obtain ⟨ms, -, h⟩ := Outcome.bind_eq_ok h
  split at h
  · exact scopedAll_segments h
  · exact scopedAll_wholeLoop h

/-- Generated loop nests are scoped on their own. -/
theorem scopedAll_generate {m : Model} {s : Schedule} {options : NestOptions} {nests : Nests}
    (h : (generate m s options).execute.1 = .ok nests) :
    ScopedAll ∅ nests.prologue ∧ ScopedAll ∅ nests.steady := by
  obtain ⟨prologue, hprologue, h⟩ := Stage.yields_bind (Stage.yields_of_execute h)
  obtain ⟨steady, hsteady, h⟩ := Stage.yields_bind h
  obtain ⟨_, -, h⟩ := Stage.yields_bind h
  obtain ⟨_, -, h⟩ := Stage.yields_bind h
  obtain rfl := Stage.yields_pure h
  exact ⟨scopedAll_ofPhase (Stage.yields_ofExcept hprologue), scopedAll_ofPhase (Stage.yields_ofExcept hsteady)⟩

end StreamLoom.Nest
