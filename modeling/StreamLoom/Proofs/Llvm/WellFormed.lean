import StreamLoom.Llvm.Generation
import StreamLoom.Proofs.Llvm.Steps

/-!
# Generated functions are well formed

Whatever the statements compute and however the loop nests around them are built: once a module has been
generated, all blocks of its functions have been ended, all jumps lead to blocks of the function, and all
results are computed on every path to where they are used.
-/

namespace StreamLoom.Llvm

open Block (code? terminator? label?)
open Assembling (emit run)

namespace Construction

variable {w : Construction} {env : Bindings}

/-! ### Loop nests -/

/-- All names are bound to values that are known. -/
def Binds (w : Construction) (env : Bindings) : Prop := ∀ entry ∈ env, w.Here entry.2

theorem Below.binds {w' : Construction} (h : Below w w') (henv : w.Binds env) : w'.Binds env :=
  fun entry hentry => h.here (henv entry hentry)

theorem Binds.cons {name : String} {v : Value} (henv : w.Binds env) (hv : w.Here v) :
    w.Binds ((name, v) :: env) :=
  List.forall_mem_cons.mpr ⟨hv, henv⟩

section

variable [Arithmetic]

mutual

theorem holds_expr {w : Construction} (henv : w.Binds env) : (e : Nest.Expr) → w.Holds (expr env e) Here
  | .int value => by
    rw [expr]
    exact .pure (here_index value)
  | .name name => by
    rw [expr]
    split
    · rename_i v hv
      obtain ⟨before, after, hmem, _⟩ := List.lookup_eq_some_iff.mp hv
      exact .pure (henv (name, v) (hmem ▸ List.mem_append_right before List.mem_cons_self))
    · exact .throw _
  | .binary op left right => by
    rw [expr]
    refine (holds_expr henv left).bind fun w₁ l b₁ hl => ?_
    refine (holds_expr (b₁.binds henv) right).bind fun w₂ r b₂ hr => ?_
    have hl₂ := b₂.here hl
    cases op with
    | add => exact holds_indexAdd hl₂ hr
    | sub => exact holds_binary .sub hl₂ hr
    | mul => exact holds_indexMul hl₂ hr
    | floorDiv => exact holds_floorDiv hl₂ hr
    | ceilDiv => exact holds_ceilDiv hl₂ hr
    | mod => exact holds_mod hl₂ hr
  | .extreme op elements => by
    rw [expr]
    exact holds_extremeOf henv op none nofun elements

theorem holds_extremeOf {w : Construction} (henv : w.Binds env) (op : Nest.Extreme) (found : Option Value)
    (hfound : ∀ v, found = some v → w.Here v) :
    (es : List Nest.Expr) → w.Holds (extremeOf env op found es) Here
  | [] => by
    cases found with
    | none =>
      rw [extremeOf]
      exact .throw _
    | some v =>
      rw [extremeOf]
      exact .pure (hfound v rfl)
  | e :: rest => by
    rw [extremeOf]
    refine (holds_expr henv e).bind fun w₁ v b₁ hv => ?_
    split
    · exact holds_extremeOf (b₁.binds henv) op (some v) (fun u hu => Option.some.inj hu ▸ hv) rest
    · rename_i u
      refine (holds_extreme _ (b₁.here (hfound u rfl)) hv).bind fun w₂ x b₂ hx => ?_
      exact holds_extremeOf ((b₁.trans b₂).binds henv) op (some x) (fun u hu => Option.some.inj hu ▸ hx) rest

end

theorem holds_conjunction (henv : w.Binds env) (found : Option Value) (hfound : ∀ v, found = some v → w.Here v)
    (cs : List Nest.Condition) : w.Holds (conjunction env found cs) Here := by
  induction cs generalizing w found with
  | nil =>
    rw [conjunction]
    cases found with
    | none => exact .pure (knows_constant (.bool true))
    | some v => exact .pure (hfound v rfl)
  | cons c cs ih =>
    rw [conjunction]
    refine (holds_expr henv c.left).bind fun w₁ l b₁ hl => ?_
    refine (holds_expr (b₁.binds henv) c.right).bind fun w₂ r b₂ hr => ?_
    refine (holds_compareInt _ (b₂.here hl) hr).bind fun w₃ v b₃ hv => ?_
    have b := b₁.trans (b₂.trans b₃)
    cases found with
    | none => exact ih (b.binds henv) (some v) fun u hu => Option.some.inj hu ▸ hv
    | some u =>
      refine (holds_binary .and (b.here (hfound u rfl)) hv).bind fun w₄ x b₄ hx => ?_
      exact ih ((b.trans b₄).binds henv) (some x) fun u hu => Option.some.inj hu ▸ hx

variable {model : Model} {steady : Bool}

/-- The body of a condition is an arm that leads to what follows. -/
theorem holds_guarded (henv : w.Binds env) (conditions : List Nest.Condition) {body : Assembling Unit}
    (hbody : ∀ w', Below w w' → w'.Holds body fun _ _ => True) :
    w.Holds (do
      let (thenBlock, thenLabel) ← Assembling.block "guard"
      let (mergeBlock, mergeLabel) ← Assembling.block "merge"
      let condition ← conjunction env none conditions
      Assembling.leave (.branch condition thenLabel mergeLabel)
      Assembling.enter thenBlock
      body
      Assembling.leave (.jump mergeLabel)
      Assembling.enter mergeBlock
      return env) fun w' env' => w'.Binds env' := by
  refine (steps_block "guard" (isStem_of_all (by decide)) w.current_lt).bind fun w₁ x₁ g₁ p₁ => ?_
  have hlt₁ : w.current < w₁.blocks.size := w.current_lt.trans_le g₁.size
  refine (steps_block "merge" (isStem_of_all (by decide)) hlt₁).bind fun w₂ x₂ g₂ p₂ => ?_
  have hlt₂ : w.current < w₂.blocks.size := hlt₁.trans_le g₂.size
  have hcurrent : w₂.current = w.current := p₂.current.trans p₁.current
  have hbelow₂ : Below w w₂ := (g₁.trans g₂).below hcurrent
  refine Steps.bind (holds_conjunction (hbelow₂.binds henv) none nofun conditions) fun w₃ condition g₃ h₃ => ?_
  obtain ⟨hlater, hcondition⟩ := h₃
  have hbelow₃ : Below w w₃ := hbelow₂.trans hlater.toBelow
  have htargets : ∀ l ∈ (Terminator.branch condition x₁.2 x₂.2).targets, w₃.Leads w₃.current l :=
    List.forall_mem_cons.mpr ⟨hbelow₃.leads ((g₂.trans g₃).leads hlt₁ p₁.leads),
      List.forall_mem_singleton.mpr (hbelow₃.leads (g₃.leads hlt₂ p₂.leads))⟩
  refine (steps_leave (t := .branch condition x₁.2 x₂.2) (List.forall_mem_singleton.mpr hcondition)
    htargets).bind fun w₄ _ g₄ h₄ => ?_
  have g : Grows w w₄ := hbelow₃.toGrows.trans g₄
  have hguard : w₄.Under w.current x₁.1 := (g₂.trans (g₃.trans g₄)).under hlt₁ p₁.under
  have hmerge : w₄.Leads w.current x₂.2 := (g₃.trans g₄).leads hlt₂ p₂.leads
  refine steps_arm g hguard hmerge hbody fun w₅ g₅ h₅ => ?_
  have hunder : w₅.Under w.current x₂.1 := (g₃.trans (g₄.trans g₅)).under hlt₂ p₂.under
  refine (steps_enter hunder.lt).bind fun w₆ _ g₆ h₆ => ?_
  have hbelow : Below w w₆ := by
    apply (g.trans (g₅.trans g₆)).below_of_under
    rw [h₆.1]
    exact g₆.under (w.current_lt.trans_le (g.trans g₅).size) hunder
  refine .pure ⟨⟨hbelow, fun c hc => ?_⟩, hbelow.binds henv⟩
  obtain ⟨hopen₄, hne_guard⟩ := h₅ c (h₆.2 c hc)
  obtain ⟨hopen₃, hne₃⟩ := h₄.2 c hopen₄
  obtain ⟨hopen₂, hne⟩ := (hlater.opens c hopen₃).resolve_left hne₃
  rw [hcurrent] at hne
  cases p₂.opens c hopen₂ with
  | inr heq => exact .inl (heq.trans h₆.1.symm)
  | inl hopen₁ => exact .inr ⟨(p₁.opens c hopen₁).resolve_right hne_guard, hne⟩

mutual

theorem holds_node {w : Construction} {env : Bindings} (henv : w.Binds env) :
    (n : Nest.Node) → w.Holds (node model steady env n) fun w' env' => w'.Binds env'
  | .block body => by
    rw [node]
    refine (holds_nodes henv body).bind fun w₁ _ b₁ _ => ?_
    exact .pure (b₁.binds henv)
  | .loop iterator lower upper body => by
    rw [node]
    refine (holds_expr henv lower).bind fun w₁ lo b₁ hlo => ?_
    refine (holds_expr (b₁.binds henv) upper).bind fun w₂ hi b₂ hhi => ?_
    have henv₂ : w₂.Binds env := (b₁.trans b₂).binds henv
    refine (holds_loop (b₂.here hlo) hhi fun w' v b' hv => ?_).bind fun w₃ _ b₃ _ => .pure (b₃.binds henv₂)
    exact holds_nodes ((b'.binds henv₂).cons hv) body
  | .guarded conditions body => by
    rw [node]
    exact holds_guarded henv conditions fun w' b' => holds_nodes (b'.binds henv) body
  | .assign name value => by
    rw [node]
    refine (holds_expr henv value).bind fun w₁ v b₁ hv => ?_
    exact .pure ((b₁.binds henv).cons hv)
  | .visit statement _ index => by
    rw [node]
    have hindex : w.Holds (index.mapM (expr env)) fun w' vs => ∀ v ∈ vs, w'.Here v :=
      (discipline model).holds_mapM (fun b hv => b.here hv) fun w' e b _ => holds_expr (b.binds henv) e
    refine hindex.bind fun w₁ vs b₁ hvs => ?_
    have hstatement := (discipline model).holds_statement (fun _ _ => trivial) statement hvs steady
    refine Holds.bind hstatement fun w₂ _ b₂ _ => ?_
    exact .pure ((b₁.trans b₂).binds henv)

theorem holds_nodes {w : Construction} {env : Bindings} (henv : w.Binds env) :
    (body : List Nest.Node) → w.Holds (nodes model steady env body) fun _ _ => True
  | [] => by
    rw [nodes]
    exact .pure trivial
  | n :: rest => by
    rw [nodes]
    exact (holds_node henv n).bind fun w₁ env₁ _ henv₁ => holds_nodes henv₁ rest

end

end

/-! ### Functions -/

variable {model : Model}

theorem holds_reset : w.Holds (reset model) fun _ _ => True := by
  unfold reset
  refine (Holds.forM fun w' entry _ _ => ?_).bind fun w₁ _ _ _ =>
    holds_store (here_index 0) (knows_parameter _ _)
  exact (holds_phaseField entry.2).bind fun w'' pointer _ hpointer => holds_store (here_index 0) hpointer

def entry (a : Assembly) (name : String) : Construction where
  assembly := { a with
    name
    blocks := #[{ label := "entry" }]
    current := 0
    results := 0
    data := []
    inputs := []
    output := none
    pending := [] }
  above := fun _ => {0}
  arranged := .single "entry"
  current_lt := Nat.zero_lt_one
  lt_results b k id i hi := by
    cases Block.code?_single.symm.trans hi
  entry_label := rfl
  numbered b l hb hl := absurd (Nat.lt_one_iff.mp (Block.lt_size_of_label? hl)) hb
  cached v hv := by
    rcases hv with ⟨_, h⟩ | ⟨_, h⟩ | h
    · exact absurd h List.not_mem_nil
    · exact absurd h List.not_mem_nil
    · cases h
  declares _ h := absurd h List.not_mem_nil

theorem isStem_body : IsStem "body" := isStem_of_all (by decide)

/-- The construction of a function before anything has been emitted. -/
def begin (a : Assembly) (name : String) : Construction :=
  ((entry a name).push "body" isStem_body 0 Nat.zero_lt_one).enter 1 Nat.one_lt_two

theorem from_start (a : Assembly) (name : String) :
    (Assembling.start name).from a = (.ok (), (begin a name).assembly) := rfl

theorem eq_of_open_begin {a : Assembly} {name : String} {b : Nat} (h : (begin a name).Open b) :
    b = 0 ∨ b = 1 := by
  have hlt : b < 2 := h.1
  omega

theorem leads_begin (a : Assembly) (name : String) :
    ∃ l, label? (begin a name).blocks 1 = some l ∧ (begin a name).Leads 0 l :=
  ⟨_, rfl, 1, rfl, Set.Subset.rfl⟩

theorem exists_function {a : Assembly} {name : String} (hlater : Later (begin a name) w) {a' : Assembly}
    (hrun : Assembling.finish.from w.assembly = (.ok (), a')) :
    ∃ f : Function, f.WellFormed ∧ f.name = name ∧ ∃ declared : List Item,
      a'.items = a.items ++ .define f :: declared ∧
      ∀ item ∈ declared, ∃ name arity, item = .declare name arity := by
  obtain ⟨l, hl, hleads⟩ := leads_begin a name
  obtain ⟨body, hbody, hlabel⟩ := Option.map_eq_some_iff.mp (hlater.labels 1 l hl)
  have hjump : ∀ l' ∈ (Terminator.jump body.label).targets, w.Leads 0 l' :=
    List.forall_mem_singleton.mpr (hlabel ▸ hlater.toGrows.leads Nat.two_pos hleads)
  unfold Assembling.finish at hrun
  obtain ⟨b, a₁, hget, hrun⟩ := Outcome.run_bind_cases hrun
  cases hget
  rw [hbody] at hrun
  obtain ⟨_, a₂, hclose, hrun⟩ := Outcome.run_bind_cases hrun
  obtain ⟨w₂, rfl, g₂, hcurrent₂, hopens₂⟩ := steps_close (fun _ hv => absurd hv List.not_mem_nil) hjump _ _ hclose
  obtain ⟨_, a₃, hleave, hrun⟩ := Outcome.run_bind_cases hrun
  obtain ⟨w₃, rfl, g₃, _, hopens₃⟩ := steps_leave (t := .ret) (fun _ hv => absurd hv List.not_mem_nil)
    (fun _ hl => absurd hl List.not_mem_nil) _ _ hleave
  cases hrun
  refine ⟨⟨w₃.assembly.name, w₃.blocks⟩, ?_, ?_, w₃.assembly.pending, ?_, w₃.declares⟩
  · apply w₃.arranged.wellFormed
    intro c hc
    apply Option.ne_none_iff_exists'.mp
    intro hnone
    -- Only the first block and the current one were open at the end of the body.
    obtain ⟨hopen₂, hne₂⟩ := hopens₃ c ⟨hc, hnone⟩
    obtain ⟨hopen, hne⟩ := hopens₂ c hopen₂
    rw [hcurrent₂] at hne₂
    obtain ⟨hbegin, hne₁⟩ := (hlater.opens c hopen).resolve_left hne₂
    exact (eq_of_open_begin hbegin).elim hne hne₁
  · exact g₃.name.trans (g₂.name.trans hlater.name)
  · have hitems : w₃.assembly.items = a.items := g₃.items.trans (g₂.items.trans hlater.items)
    show w₃.assembly.items ++ [.define ⟨w₃.assembly.name, w₃.blocks⟩] ++ w₃.assembly.pending = _
    rw [hitems, List.append_assoc]
    rfl

variable [Arithmetic]

theorem holds_advance : w.Holds (advance model) fun _ _ => True := by
  unfold advance
  refine (Holds.forM fun w' entry _ _ => ?phases).bind fun w₁ _ _ _ => ?count
  case phases =>
    refine (holds_phase entry.2).bind fun w₁ phase _ hphase => ?_
    refine (holds_indexAdd hphase (here_index _)).bind fun w₂ next _ hnext => ?_
    refine (holds_indexMod hnext _).bind fun w₃ turned _ hturned => ?_
    exact (holds_phaseField entry.2).bind fun w₄ pointer b₄ hpointer => holds_store (b₄.here hturned) hpointer
  case count =>
    refine (holds_load .i64 (knows_parameter _ _)).bind fun w₂ count _ hcount => ?_
    refine (holds_binary .add hcount (here_index 1)).bind fun w₃ next _ hnext => ?_
    exact holds_store hnext (knows_parameter _ _)

/-- A function that has been generated is well formed, and is followed by declarations only. -/
theorem exists_function_of_run {model : Model} {name : String} {body : List Nest.Node} {steady : Bool}
    {a a' : Assembly} (hrun : (function model name body steady).from a = (.ok (), a')) :
    ∃ f : Function, f.WellFormed ∧ f.name = name ∧ ∃ declared : List Item,
      a'.items = a.items ++ .define f :: declared ∧
      ∀ item ∈ declared, ∃ name arity, item = .declare name arity := by
  have hbegin : ∀ w, Below (begin a name) w → w.Holds (nodes model steady [] body) fun _ _ => True :=
    fun w _ => holds_nodes (fun _ h => absurd h List.not_mem_nil) body
  unfold function at hrun
  obtain ⟨_, a₁, hstart, hrun⟩ := Outcome.run_bind_cases hrun
  cases (from_start a name).symm.trans hstart
  cases steady with
  | false =>
    obtain ⟨_, a₂, hreset, hrun⟩ := Outcome.run_bind_cases hrun
    obtain ⟨w₂, rfl, _, hlater₂, _⟩ := holds_reset _ _ hreset
    obtain ⟨_, a₃, hnodes, hrun⟩ := Outcome.run_bind_cases hrun
    obtain ⟨w₃, rfl, _, hlater₃, _⟩ := hbegin w₂ hlater₂.toBelow _ _ hnodes
    exact exists_function (hlater₂.trans hlater₃) hrun
  | true =>
    obtain ⟨_, a₂, hnodes, hrun⟩ := Outcome.run_bind_cases hrun
    obtain ⟨w₂, rfl, _, hlater₂, _⟩ := hbegin _ ((Grows.refl _).below rfl) _ _ hnodes
    obtain ⟨_, a₃, hadvance, hrun⟩ := Outcome.run_bind_cases hrun
    obtain ⟨w₃, rfl, _, hlater₃, _⟩ := holds_advance _ _ hadvance
    exact exists_function (hlater₂.trans hlater₃) hrun

end Construction

/-! ### Modules -/

def Item.function? : Item → Option Function
  | .define f => some f
  | .declare .. => none

theorem filterMap_declared {declared : List Item}
    (h : ∀ item ∈ declared, ∃ name arity, item = .declare name arity) :
    declared.filterMap Item.function? = [] := by
  rw [List.filterMap_eq_nil_iff]
  intro item hitem
  obtain ⟨name, arity, rfl⟩ := h item hitem
  rfl

/-- All functions of a generated module are well formed: that of the prologue, and that of the steady state
unless it is empty. -/
theorem generated_wellFormed [Arithmetic] {model : Model} {nests : Nest.Nests} {module : Module}
    (h : (generate model nests).1 = .ok module) :
    (module.items.filterMap Item.function?).map (·.name) =
      (if nests.steady.isEmpty then ["initialize"] else ["initialize", "process"]) ∧
    ∀ f ∈ module.items.filterMap Item.function?, f.WellFormed := by
  obtain ⟨a, hrun⟩ : ∃ a, (functions model nests).from {} = (.ok module, a) := ⟨_, Prod.ext h rfl⟩
  unfold functions at hrun
  obtain ⟨_, a₁, hprologue, hrun⟩ := Outcome.run_bind_cases hrun
  obtain ⟨f, hf, hname, declared, hitems, hdeclared⟩ := Construction.exists_function_of_run hprologue
  have hfirst : a₁.items.filterMap Item.function? = [f] := by
    rw [hitems, List.filterMap_append, List.filterMap_cons, filterMap_declared hdeclared]
    rfl
  cases hsteady : nests.steady.isEmpty with
  | true =>
    rw [hsteady] at hrun
    cases hrun
    rw [hfirst]
    exact ⟨congrArg (fun n => [n]) hname, List.forall_mem_singleton.mpr hf⟩
  | false =>
    rw [hsteady] at hrun
    obtain ⟨_, a₂, hprocess, hrun⟩ := Outcome.run_bind_cases hrun
    obtain ⟨g, hg, hname', declared', hitems', hdeclared'⟩ := Construction.exists_function_of_run hprocess
    cases hrun
    have hboth : a.items.filterMap Item.function? = [f, g] := by
      rw [hitems', List.filterMap_append, List.filterMap_cons, filterMap_declared hdeclared', hfirst]
      rfl
    rw [hboth]
    refine ⟨?_, List.forall_mem_cons.mpr ⟨hf, List.forall_mem_singleton.mpr hg⟩⟩
    rw [List.map_cons, List.map_cons, hname, hname']
    rfl

attribute [local instance] Arithmetic.word64

/-- A stream whose elements are computed by a conditional within a reduction, and which is written within a
condition and a loop. -/
def nestedControl : Model × Nest.Nests :=
  let array : DataArray :=
    { name := "a", type := .int, extents := [none], isOutput := true
      buffer := { period := 1, order := [0], sizes := [1] } }
  let one : Computation := .constant (.int 1)
  let statement : Statement :=
    { name := "a0", domain := array.domain
      computation := .reduce .add .int 1 0 2
        (.apply .conditional .int [.constant (.bool true), one, .iterator ⟨1, 1, 0⟩])
      array := 0, write := Statement.writing array.domain array, flow := some 0, origin := none }
  let visit : Nest.Node := .visit 0 "a0" [.int 0, .name "i0"]
  ({ arrays := [array], statements := [statement], output := some 0 },
    { prologue := []
      steady := [.loop "i0" (.int 0) (.int 0) [.guarded [⟨.name "i0", .ge, .int 0⟩] [visit]]] })

theorem generated_wellFormed_nested : ∃ module, (generate nestedControl.1 nestedControl.2).1 = .ok module ∧
    (module.items.filterMap Item.function?).map (·.name) = ["initialize", "process"] ∧
    ∀ f ∈ module.items.filterMap Item.function?, f.WellFormed := by
  obtain ⟨module, h, _⟩ := Outcome.exists_of_passes
    (show Outcome.passes (generate nestedControl.1 nestedControl.2).1 (fun _ => true) = true by decide +kernel)
  exact ⟨module, h, generated_wellFormed h⟩

end StreamLoom.Llvm
