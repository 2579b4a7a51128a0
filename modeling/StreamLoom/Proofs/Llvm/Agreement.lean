import StreamLoom.Proofs.Llvm.Arithmetic

/-!
# Agreement with the execution of loop nests

What is emitted for an expression of a loop nest, or for a conjunction of conditions, computes what executing
the nest takes them for, and where executing it ends in a fault, so does emitting it.
-/

namespace StreamLoom

attribute [local instance] Arithmetic.word64

namespace Nest

/-! ### Expressions -/

def Operation.divides : Operation → Bool
  | floorDiv | ceilDiv | mod => true
  | _ => false

namespace Expr

mutual

/-- Literals are words, and divisors are positive literals. -/
def Regular : Expr → Prop
  | name _ => True
  | int value => IsWord value
  | binary op left right =>
    left.Regular ∧ right.Regular ∧ (op.divides → ∃ d, 0 < d ∧ right = .int d)
  | extreme _ elements => AllRegular elements

def AllRegular : List Expr → Prop
  | [] => True
  | e :: rest => e.Regular ∧ AllRegular rest

end

mutual

/-- No operation leaves the words. -/
def Unwrapped (env : Env) : Expr → Prop
  | name _ => True
  | int _ => True
  | binary op left right =>
    left.Unwrapped env ∧ right.Unwrapped env ∧ ∀ l r, left.eval env = .ok l → right.eval env = .ok r →
      op.eval l r = @Operation.eval .exact l r op
  | extreme _ elements => AllUnwrapped env elements

def AllUnwrapped (env : Env) : List Expr → Prop
  | [] => True
  | e :: rest => e.Unwrapped env ∧ AllUnwrapped env rest

end

end Expr

namespace Condition

structure Regular (c : Condition) : Prop where
  left : c.left.Regular
  right : c.right.Regular

structure Unwrapped (env : Env) (c : Condition) : Prop where
  left : c.left.Unwrapped env
  right : c.right.Unwrapped env

end Condition

end Nest

namespace Llvm

/-! ### Parts and evaluations -/

section

variable {α β γ δ : Type}

/-- A part gives what an evaluation has come to, and ends in the fault that the evaluation has ended in. -/
def Agrees (part : Assembling α) (s : Spot) (P : β → Registers → α → Prop) : Except Fault β → Prop
  | .ok x => Gives part s (P x)
  | .error fault => (part.from s.assembly).1 = .error (.fault fault)

variable {part : Assembling α} {f : α → Assembling γ} {s : Spot} {P : β → Registers → α → Prop}
  {Q : δ → Registers → γ → Prop} {R : Registers → α → Prop} {x : Except Fault β} {g : β → Except Fault δ}
  {y : Except Fault δ}

theorem Gives.agrees (h : Gives part s R)
    (hf : ∀ v s', s.registers.Keeps s'.registers → R s'.registers v → Agrees (f v) s' Q y) :
    Agrees (part >>= f) s Q y := by
  cases y with
  | ok y => exact h.bind hf
  | error fault =>
    obtain ⟨v, s', hpart, hv⟩ := h
    show ((part >>= f).from s.assembly).1 = _
    rw [Assembling.from_bind hpart.ends]
    exact hf v s' hpart.keeps hv

theorem Agrees.bind (h : Agrees part s P x)
    (hf : ∀ b v s', x = .ok b → s.registers.Keeps s'.registers → P b s'.registers v →
      Agrees (f v) s' Q (g b)) :
    Agrees (part >>= f) s Q (x >>= g) := by
  cases x with
  | ok b => exact Gives.agrees h fun v s' => hf b v s' rfl
  | error fault => exact Assembling.from_bind_error h

end

/-- The names are bound to values that stand for theirs, and the same names are. -/
def Represents (ρ : Registers) (bindings : Bindings) (env : Nest.Env) : Prop :=
  ∀ name, Option.Rel (fun v x => Stands x ρ v) (bindings.lookup name) (env.lookup name)

variable {s : Spot} {bindings : Bindings} {env : Nest.Env}

theorem Registers.Keeps.represents {ρ ρ' : Registers} (k : ρ.Keeps ρ') (h : Represents ρ bindings env) :
    Represents ρ' bindings env := by
  intro name
  have hname := h name
  revert hname
  generalize bindings.lookup name = v
  generalize env.lookup name = x
  intro hname
  cases hname with
  | some hstands => exact .some (k.integer? hstands)
  | none => exact .none

/-! ### Operations -/

theorem gives_operation {op : Nest.Operation} {l r : Value} {a b : Int} (hl : Stands a s.registers l)
    (hr : Stands b s.registers r) (hdivides : op.divides → 0 < b)
    (hexact : op.eval a b = @Nest.Operation.eval .exact a b op) :
    Agrees (match op with
      | .add => indexAdd l r
      | .sub => Assembling.emit (.binary .sub l r)
      | .mul => indexMul l r
      | .floorDiv => floorDiv l r
      | .ceilDiv => ceilDiv l r
      | .mod => mod l r) s Stands (op.eval a b) := by
  cases op with
  | add => exact gives_indexAdd hl hr
  | sub => exact gives_sub hl hr
  | mul => exact gives_indexMul hl hr
  | floorDiv =>
    have hb : 0 < b := hdivides rfl
    have heval : Nest.Operation.eval a b .floorDiv = .ok (a.fdiv b) :=
      hexact.trans (Arithmetic.floorDiv?_exact a hb)
    rw [heval]
    exact gives_floorDiv hl hr hb
  | ceilDiv =>
    have hb : 0 < b := hdivides rfl
    have heval : Nest.Operation.eval a b .ceilDiv = .ok (-(-a).fdiv b) :=
      hexact.trans (Arithmetic.ceilDiv?_exact a hb)
    rw [heval]
    exact gives_ceilDiv hl hr hb
  | mod =>
    have hb : 0 < b := hdivides rfl
    have heval : Nest.Operation.eval a b .mod = .ok (a % b) := Arithmetic.residue?_eq hb.ne' a
    rw [heval]
    exact gives_mod hl hr hb

theorem gives_extreme {op : Nest.Extreme} {u v : Value} {a b : Int} (hu : Stands a s.registers u)
    (hv : Stands b s.registers v) :
    Gives (extreme (if op = .min then .slt else .sgt) u v) s (Stands (op.pick a b)) := by
  unfold extreme
  refine (gives_compare _ hu hv).bind fun c s₁ k₁ hc => ?_
  refine (gives_select hc (k₁.integer? hu) (k₁.integer? hv)).imp fun ρ w hw => ?_
  have hpick : (if IntPredicate.compare a b (if op = .min then .slt else .sgt) then a else b) =
      op.pick a b := by
    cases op with
    | min =>
      simp only [IntPredicate.compare, Nest.Extreme.pick, if_true, decide_eq_true_eq]
      omega
    | max =>
      simp only [IntPredicate.compare, Nest.Extreme.pick, reduceCtorEq, if_false, decide_eq_true_eq]
      omega
  rw [← hpick]
  exact hw

/-! ### Expressions -/

mutual

theorem agrees_expr {s : Spot} (h : Represents s.registers bindings env) :
    (e : Nest.Expr) → e.Regular → e.Unwrapped env → Agrees (expr bindings e) s Stands (e.eval env)
  | .int value, hregular, _ => by
    rw [Nest.Expr.Regular] at hregular
    rw [expr, Nest.Expr.eval]
    exact .pure (stands_index hregular _)
  | .name name, _, _ => by
    rw [expr, Nest.Expr.eval]
    have hname := h name
    cases hv : bindings.lookup name <;> cases hx : env.lookup name <;> rw [hv, hx] at hname <;> cases hname
    · rfl
    · rename_i hstands
      exact .pure hstands
  | .binary op left right, hregular, hunwrapped => by
    rw [Nest.Expr.Regular] at hregular
    rw [Nest.Expr.Unwrapped] at hunwrapped
    obtain ⟨hleft, hright, hdivisor⟩ := hregular
    obtain ⟨hleft', hright', hexact⟩ := hunwrapped
    rw [expr, Nest.Expr.eval]
    refine Agrees.bind (agrees_expr h left hleft hleft') fun a l s₁ ha k₁ hl => ?_
    refine Agrees.bind (agrees_expr (k₁.represents h) right hright hright') fun b r s₂ hb k₂ hr => ?_
    refine gives_operation (k₂.integer? hl) hr ?_ (hexact a b ha hb)
    intro hop
    obtain ⟨d, hd, rfl⟩ := hdivisor hop
    rw [Nest.Expr.eval] at hb
    cases hb
    exact hd
  | .extreme op elements, hregular, hunwrapped => by
    rw [Nest.Expr.Regular] at hregular
    rw [Nest.Expr.Unwrapped] at hunwrapped
    rw [expr, Nest.Expr.eval]
    cases elements with
    | nil => 
      rw [extremeOf, Nest.Expr.evalAll]
      rfl
    | cons e rest =>
      rw [Nest.Expr.AllRegular] at hregular
      rw [Nest.Expr.AllUnwrapped] at hunwrapped
      rw [extremeOf, Nest.Expr.evalAll, bind_assoc]
      refine Agrees.bind (agrees_expr h e hregular.1 hunwrapped.1) fun a v s₁ _ k₁ hv => ?_
      rw [bind_assoc]
      exact agrees_extreme (k₁.represents h) hv rest hregular.2 hunwrapped.2

/-- The extreme of a value that has been found before and of some expressions. -/
theorem agrees_extreme {s : Spot} (h : Represents s.registers bindings env) {op : Nest.Extreme} {u : Value}
    {a : Int} (hu : Stands a s.registers u) :
    (es : List Nest.Expr) → Nest.Expr.AllRegular es → Nest.Expr.AllUnwrapped env es →
      Agrees (extremeOf bindings op (some u) es) s Stands
        (Nest.Expr.evalAll env es >>= fun xs => op.eval (a :: xs))
  | [], _, _ => by
    rw [extremeOf, Nest.Expr.evalAll]
    exact .pure hu
  | e :: rest, hregular, hunwrapped => by
    rw [Nest.Expr.AllRegular] at hregular
    rw [Nest.Expr.AllUnwrapped] at hunwrapped
    rw [extremeOf, Nest.Expr.evalAll, bind_assoc]
    refine Agrees.bind (agrees_expr h e hregular.1 hunwrapped.1) fun b v s₁ _ k₁ hv => ?_
    refine (gives_extreme (k₁.integer? hu) hv).agrees fun w s₂ k₂ hw => ?_
    rw [bind_assoc]
    exact agrees_extreme (k₂.represents (k₁.represents h)) hw rest hregular.2 hunwrapped.2

end

/-! ### Conditions -/

theorem gives_comparison {op : Nest.Comparison} {l r : Value} {a b : Int} (hl : Stands a s.registers l)
    (hr : Stands b s.registers r) :
    Gives (Assembling.emit (.compareInt (comparison op) l r)) s (Tells (op.holds a b)) := by
  have heq : op.holds a b = (comparison op).compare a b := by cases op <;> rfl
  rw [heq]
  exact gives_compare _ hl hr

/-- A condition is evaluated before what depends on it. -/
theorem agrees_condition (h : Represents s.registers bindings env) {c : Nest.Condition} (hc : c.Regular)
    (hc' : c.Unwrapped env) {α β : Type} {f : Value → Assembling α} {g : Bool → Except Fault β}
    {P : β → Registers → α → Prop} (hf : ∀ q v s', s.registers.Keeps s'.registers →
      Tells q s'.registers v → Agrees (f v) s' P (g q)) :
    Agrees (do
      let l ← expr bindings c.left
      let r ← expr bindings c.right
      f (← Assembling.emit (.compareInt (comparison c.op) l r))) s P (c.holds env >>= g) := by
  rw [Nest.Condition.holds]
  simp only [bind_assoc, pure_bind]
  refine (agrees_expr h c.left hc.left hc'.left).bind fun a l s₁ _ k₁ hl => ?_
  refine (agrees_expr (k₁.represents h) c.right hc.right hc'.right).bind fun b r s₂ _ k₂ hr => ?_
  refine (gives_comparison (k₂.integer? hl) hr).agrees fun v s₃ k₃ hv => ?_
  exact hf _ v s₃ (fun id d hd => k₃ id d (k₂ id d (k₁ id d hd))) hv

/-- The conjunction of a truth value that has been found before and of some conditions. -/
theorem agrees_conjunction_some {p : Bool} {v : Value} (h : Represents s.registers bindings env)
    (hv : Tells p s.registers v) {cs : List Nest.Condition} (hregular : ∀ c ∈ cs, c.Regular)
    (hunwrapped : ∀ c ∈ cs, c.Unwrapped env) :
    Agrees (conjunction bindings (some v) cs) s Tells
      (cs.mapM (·.holds env) >>= fun bs => pure (p && bs.all id)) := by
  induction cs generalizing s p v with
  | nil =>
    rw [conjunction, List.mapM_nil]
    refine .pure ?_
    rw [List.all_nil, Bool.and_true]
    exact hv
  | cons c cs ih =>
    obtain ⟨hc, hcs⟩ := List.forall_mem_cons.mp hregular
    obtain ⟨hc', hcs'⟩ := List.forall_mem_cons.mp hunwrapped
    rw [conjunction, List.mapM_cons]
    simp only [bind_assoc, pure_bind]
    refine agrees_condition h hc hc' fun q u s₁ k₁ hu => ?_
    refine (gives_bits rfl (k₁.truth? hv) hu).agrees fun w s₂ k₂ hw => ?_
    simp only [List.all_cons, id_eq, ← Bool.and_assoc]
    exact ih (k₂.represents (k₁.represents h)) hw hcs hcs'

/-- What is emitted for a conjunction of conditions tells whether all of them hold. -/
theorem agrees_conjunction (h : Represents s.registers bindings env) {cs : List Nest.Condition}
    (hregular : ∀ c ∈ cs, c.Regular) (hunwrapped : ∀ c ∈ cs, c.Unwrapped env) :
    Agrees (conjunction bindings none cs) s Tells (cs.mapM (·.holds env) >>= fun bs => pure (bs.all id)) := by
  cases cs with
  | nil =>
    rw [conjunction, List.mapM_nil]
    exact .pure rfl
  | cons c cs =>
    obtain ⟨hc, hcs⟩ := List.forall_mem_cons.mp hregular
    obtain ⟨hc', hcs'⟩ := List.forall_mem_cons.mp hunwrapped
    rw [conjunction, List.mapM_cons]
    simp only [bind_assoc, pure_bind]
    refine agrees_condition h hc hc' fun q v s₁ k₁ hv => ?_
    simp only [List.all_cons, id_eq]
    exact agrees_conjunction_some (k₁.represents h) hv hcs hcs'

/-! ### Agreement -/

/-- With words in two's complement, what is emitted for expressions and conditions computes what executing a
loop nest takes them for, and sums and products of indices are those of their operands, however much of them
is known. So are remainders, unless that of a literal wraps around where the divisor is added to it. -/
theorem arithmetic_agrees (h : Represents s.registers bindings env) :
    (∀ e : Nest.Expr, e.Regular → e.Unwrapped env → Agrees (expr bindings e) s Stands (e.eval env)) ∧
    (∀ cs : List Nest.Condition, (∀ c ∈ cs, c.Regular) → (∀ c ∈ cs, c.Unwrapped env) →
      Agrees (conjunction bindings none cs) s Tells (do return (← cs.mapM (·.holds env)).all id)) ∧
    (∀ (x y : Value) (a b : Int), Stands a s.registers x → Stands b s.registers y →
      Gives (indexAdd x y) s (Stands (Arithmetic.wrap (a + b))) ∧
      Gives (indexMul x y) s (Stands (Arithmetic.wrap (a * b)))) ∧
    (∀ (v : Value) (a m : Int), Stands a s.registers v → 0 < m → IsWord m →
      (∀ c, v.literal? = some c → IsWord c) → ∃ r, Gives (indexMod v m) s (Stands r) ∧
        (r = a % m ↔ ¬ (v.literal?.isSome ∧ m ≠ 1 ∧ 0x8000000000000000 ≤ a.tmod m + m))) := by
  refine ⟨fun e => agrees_expr h e, fun cs => agrees_conjunction h, ?_, ?_⟩
  · intro x y a b hx hy
    exact ⟨gives_indexAdd hx hy, gives_indexMul hx hy⟩
  · intro v a m hv hm hword hliteral
    exact gives_indexMod hv hm hword hliteral

/-- A block with one result so far, which is the word `-7`. -/
def negativeSeven : Spot where
  assembly := { blocks := #[{ label := "body1" }], results := 1 }
  registers := fun id => if id = 0 then some (.word (-7)) else none
  fresh _ hid := if_neg (Nat.ne_of_gt hid)

/-- Half of `-7` is `-4` rounded down, which is at least `-4`. The remainder of a large literal by a larger
number is not the literal. -/
theorem halved_down :
    Gives (expr [("i", .result 0 .i64)] (.binary .floorDiv (.name "i") (.int 2))) negativeSeven (Stands (-4)) ∧
    Gives (conjunction [("i", .result 0 .i64)] none
      [⟨.binary .floorDiv (.name "i") (.int 2), .ge, .int (-4)⟩]) negativeSeven (Tells true) ∧
    Gives (indexAdd (.result 0 .i64) (.index 0)) negativeSeven (Stands (-7)) ∧
    ∃ r, Gives (indexMod (.index 4900000000000000000) 4900000000000000001) negativeSeven (Stands r) ∧
      r ≠ 4900000000000000000 := by
  have hstands : Stands (-7) negativeSeven.registers (.result 0 .i64) :=
    integer?_eq_some.mpr ⟨-7, rfl, by decide⟩
  have h : Represents negativeSeven.registers [("i", .result 0 .i64)] [("i", -7)] := by
    intro name
    by_cases hname : name = "i"
    · subst hname
      exact .some hstands
    · have hnone : (name == "i") = false := beq_false_of_ne hname
      rw [List.lookup_cons, List.lookup_cons, hnone]
      exact .none
  have hhalf : (Nest.Expr.binary .floorDiv (.name "i") (.int 2)).Regular := by
    simp [Nest.Expr.Regular, IsWord]
  have hhalf' : (Nest.Expr.binary .floorDiv (.name "i") (.int 2)).Unwrapped [("i", -7)] := by
    simp only [Nest.Expr.Unwrapped, Nest.Expr.eval, true_and]
    intro l r hl hr
    cases hl
    cases hr
    rfl
  let c : Nest.Condition := ⟨.binary .floorDiv (.name "i") (.int 2), .ge, .int (-4)⟩
  have hc : c.Regular := ⟨hhalf, by simp [c, Nest.Expr.Regular, IsWord]⟩
  have hc' : c.Unwrapped [("i", -7)] := ⟨hhalf', by simp [c, Nest.Expr.Unwrapped]⟩
  obtain ⟨hexpr, hconjunction, hindex, hmod⟩ := arithmetic_agrees h
  refine ⟨hexpr _ hhalf hhalf', ?_, ?_, ?_⟩
  · exact hconjunction [c] (List.forall_mem_singleton.mpr hc) (List.forall_mem_singleton.mpr hc')
  · exact (hindex (.result 0 .i64) (.index 0) (-7) 0 hstands (stands_zero _)).1
  · have hword : IsWord 4900000000000000000 := ⟨by decide, by decide⟩
    obtain ⟨r, hr, hiff⟩ := hmod (.index 4900000000000000000) 4900000000000000000 4900000000000000001 rfl
      (by decide) ⟨by decide, by decide⟩ (fun c hc => Option.some.inj hc ▸ hword)
    refine ⟨r, hr, fun heq => ?_⟩
    exact hiff.mp (heq.trans (by decide)) ⟨rfl, by decide, by decide⟩

end Llvm

end StreamLoom
