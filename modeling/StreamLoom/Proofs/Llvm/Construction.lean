import StreamLoom.Proofs.Llvm.Assembly

/-!
# Functions under construction

An assembly is followed together with the blocks above each block. Every step keeps the blocks arranged, and
leaves what has been placed where it is. A part of a lowering may open blocks of its own, but closes all of
them again, apart from the one in which it ends; that one is below the block in which the part began, so what
was known there is still known.
-/

namespace StreamLoom.Llvm

open Block (code? terminator? label?)

/-- A value that is kept for the whole function. -/
def Assembly.Cached (a : Assembly) (v : Value) : Prop :=
  (∃ array, (array, v) ∈ a.data) ∨ (∃ input, (input, v) ∈ a.inputs) ∨ a.output = some v

/-- Two assemblies with the same blocks. -/
structure Assembly.Resembles (a a' : Assembly) : Prop where
  blocks : a.blocks = a'.blocks
  current : a.current = a'.current
  results : a.results = a'.results
  labels : a.labels = a'.labels
  items : a.items = a'.items
  name : a.name = a'.name

/-- An assembly in which a function is being built, and the blocks above each of its blocks. -/
structure Construction where
  assembly : Assembly
  above : Nat → Set Nat
  arranged : Arranged assembly.blocks above
  current_lt : assembly.current < assembly.blocks.size
  lt_results : ∀ b k id i, code? assembly.blocks b k = some (id, i) → id < assembly.results
  entry_label : label? assembly.blocks 0 = some "entry"
  numbered : ∀ b l, b ≠ 0 → label? assembly.blocks b = some l → ∃ n, n ≤ assembly.labels ∧ Numbered n l
  cached : ∀ v, assembly.Cached v → Known assembly.blocks above 0 v
  declares : ∀ item ∈ assembly.pending, ∃ name arity, item = .declare name arity

namespace Construction

abbrev blocks (w : Construction) : Array Block := w.assembly.blocks

abbrev current (w : Construction) : Nat := w.assembly.current

def Knows (w : Construction) (b : Nat) (v : Value) : Prop := Known w.blocks w.above b v

def Here (w : Construction) (v : Value) : Prop := w.Knows w.current v

def Open (w : Construction) (b : Nat) : Prop := b < w.blocks.size ∧ terminator? w.blocks b = none

/-- A jump to a label only enlarges the blocks above by the destination. -/
def Leads (w : Construction) (b : Nat) (l : String) : Prop :=
  ∃ c, label? w.blocks c = some l ∧ w.above c ⊆ insert c (w.above b)

/-- What has been placed is where it was. -/
structure Grows (w w' : Construction) : Prop where
  size : w.blocks.size ≤ w'.blocks.size
  code : ∀ b k x, code? w.blocks b k = some x → code? w'.blocks b k = some x
  labels : ∀ b l, label? w.blocks b = some l → label? w'.blocks b = some l
  above : ∀ b, b < w.blocks.size → w'.above b = w.above b
  items : w'.assembly.items = w.assembly.items
  name : w'.assembly.name = w.assembly.name

/-- The current block is below the one from before. -/
structure Below (w w' : Construction) : Prop extends Grows w w' where
  forward : w.above w.current ⊆ w'.above w'.current

/-- No other block than the current one has been left open. -/
structure Later (w w' : Construction) : Prop extends Below w w' where
  opens : ∀ b, w'.Open b → b = w'.current ∨ (w.Open b ∧ b ≠ w.current)

variable {w w' w'' : Construction} {b : Nat} {v : Value}

theorem Grows.refl (w : Construction) : Grows w w where
  size := Nat.le_refl _
  code _ _ _ h := h
  labels _ _ h := h
  above _ _ := rfl
  items := rfl
  name := rfl

theorem Grows.trans (h : Grows w w') (h' : Grows w' w'') : Grows w w'' where
  size := h.size.trans h'.size
  code b k x hx := h'.code b k x (h.code b k x hx)
  labels b l hl := h'.labels b l (h.labels b l hl)
  above b hb := (h'.above b (hb.trans_le h.size)).trans (h.above b hb)
  items := h'.items.trans h.items
  name := h'.name.trans h.name

theorem Below.trans (h : Below w w') (h' : Below w' w'') : Below w w'' where
  toGrows := h.toGrows.trans h'.toGrows
  forward := h.forward.trans h'.forward

theorem Grows.below (h : Grows w w') (hcurrent : w'.current = w.current) : Below w w' where
  toGrows := h
  forward := by rw [hcurrent, h.above w.current w.current_lt]

theorem Grows.later (h : Grows w w') (hcurrent : w'.current = w.current) (hopens : ∀ b, w'.Open b → w.Open b) :
    Later w w' where
  toBelow := h.below hcurrent
  opens b hb := by
    by_cases hb' : b = w.current
    · exact .inl (hb'.trans hcurrent.symm)
    · exact .inr ⟨hopens b hb, hb'⟩

theorem Later.of_eq (hblocks : w'.blocks = w.blocks) (habove : w'.above = w.above)
    (hcurrent : w'.current = w.current) (hitems : w'.assembly.items = w.assembly.items)
    (hname : w'.assembly.name = w.assembly.name) : Later w w' := by
  have hgrows : Grows w w' := by
    refine ⟨by rw [hblocks], ?_, ?_, fun b _ => by rw [habove], hitems, hname⟩
    · intro b k x hx
      rw [hblocks]
      exact hx
    · intro b l hl
      rw [hblocks]
      exact hl
  apply hgrows.later hcurrent
  intro b hb
  unfold Open at hb ⊢
  rw [hblocks] at hb
  exact hb

theorem Later.refl (w : Construction) : Later w w := (Grows.refl w).later rfl fun _ hb => hb

theorem Later.trans (h : Later w w') (h' : Later w' w'') : Later w w'' where
  toBelow := h.toBelow.trans h'.toBelow
  opens b hb := by
    cases h'.opens b hb with
    | inl hcurrent => exact .inl hcurrent
    | inr hopen => exact .inr ((h.opens b hopen.1).resolve_left hopen.2)

theorem Knows.mono {c : Nat} (h : w.Knows b v) (hsubset : w.above b ⊆ w.above c) : w.Knows c v := by
  intro id type hresult
  obtain ⟨d, hd, hcode⟩ := h id type hresult
  exact ⟨d, hsubset hd, hcode⟩

theorem Grows.knows (h : Grows w w') (hb : b < w.blocks.size) (hv : w.Knows b v) : w'.Knows b v :=
  Known.mono hv h.code (h.above b hb).ge

theorem size_pos (w : Construction) : 0 < w.blocks.size := Nat.zero_lt_of_lt w.current_lt

theorem Grows.knows_entry (h : Grows w w') (hv : w.Knows 0 v) : w'.Knows 0 v := h.knows w.size_pos hv

theorem Knows.of_entry (h : w.Knows 0 v) (hb : b < w.blocks.size) : w.Knows b v := by
  apply h.mono
  rw [w.arranged.entry]
  exact Set.singleton_subset_iff.mpr (w.arranged.first b hb)

theorem here_of_entry (h : w.Knows 0 v) : w.Here v := h.of_entry w.current_lt

theorem here_of_cached (h : w.assembly.Cached v) : w.Here v := here_of_entry (w.cached v h)

theorem Below.here (h : Below w w') (hv : w.Here v) : w'.Here v := by
  apply (h.knows w.current_lt hv).mono
  rw [h.above w.current w.current_lt]
  exact h.forward

theorem knows_of_not_result (h : ∀ id type, v ≠ .result id type) : w.Knows b v :=
  fun id type hresult => absurd hresult (h id type)

theorem Grows.leads {l : String} (h : Grows w w') (hb : b < w.blocks.size) (hl : w.Leads b l) : w'.Leads b l := by
  obtain ⟨c, hc, hsubset⟩ := hl
  refine ⟨c, h.labels c l hc, ?_⟩
  rw [h.above b hb, h.above c (Block.lt_size_of_label? hc)]
  exact hsubset

/-- What can be jumped to from a block can be jumped to from the blocks below. -/
theorem Leads.mono {c : Nat} {l : String} (h : w.Leads b l) (hsubset : w.above b ⊆ w.above c) : w.Leads c l := by
  obtain ⟨d, hd, hd'⟩ := h
  exact ⟨d, hd, hd'.trans (Set.insert_subset_insert hsubset)⟩

structure Under (w : Construction) (p b : Nat) : Prop where
  lt : b < w.blocks.size
  subset : w.above p ⊆ w.above b

theorem Grows.under {p : Nat} (h : Grows w w') (hp : p < w.blocks.size) (hu : w.Under p b) : w'.Under p b where
  lt := hu.lt.trans_le h.size
  subset := by
    rw [h.above p hp, h.above b hu.lt]
    exact hu.subset

theorem Under.trans {p c : Nat} (h : w.Under p b) (h' : w.Under b c) : w.Under p c :=
  ⟨h'.lt, h.subset.trans h'.subset⟩

theorem Grows.below_of_under (h : Grows w w') (hu : w'.Under w.current w'.current) : Below w w' where
  toGrows := h
  forward := (h.above w.current w.current_lt).ge.trans hu.subset

theorem Below.leads {l : String} (h : Below w w') (hl : w'.Leads w.current l) : w'.Leads w'.current l :=
  hl.mono ((h.above w.current w.current_lt).le.trans h.forward)

/-! ### Steps -/

/-- Adds an instruction to a block that knows its operands. -/
def place (w : Construction) (b : Nat) (i : Instruction) (hoperands : ∀ v ∈ i.operands, w.Knows b v) :
    Construction where
  assembly := { w.assembly with
    results := w.assembly.results + 1
    blocks := Block.place w.blocks b (w.assembly.results, i) }
  above := w.above
  arranged := w.arranged.place (fun c k j hcode => Nat.lt_irrefl _ (w.lt_results c k _ j hcode)) hoperands
  current_lt := w.current_lt.trans_eq Block.size_place.symm
  lt_results c k id j hcode := by
    cases Block.code?_of_place hcode with
    | inl hold => exact (w.lt_results c k id j hold).trans (Nat.lt_succ_self _)
    | inr hnew =>
      cases hnew.2.2
      exact Nat.lt_succ_self _
  entry_label := Block.label?_place.trans w.entry_label
  numbered c l hc hl := w.numbered c l hc (Block.label?_place.symm.trans hl)
  cached v hv := (w.cached v hv).mono
    (fun _ _ _ => Block.code?_place_of_some) subset_rfl
  declares := w.declares

def close (w : Construction) (b : Nat) (t : Terminator) (hoperands : ∀ v ∈ t.operands, w.Knows b v)
    (htargets : ∀ l ∈ t.targets, w.Leads b l) : Construction where
  assembly := { w.assembly with blocks := Block.close w.blocks b t }
  above := w.above
  arranged := w.arranged.close hoperands htargets
  current_lt := w.current_lt.trans_eq Block.size_close.symm
  lt_results c k id j hcode := w.lt_results c k id j (Block.code?_close.symm.trans hcode)
  entry_label := Block.label?_close.trans w.entry_label
  numbered c l hc hl := w.numbered c l hc (Block.label?_close.symm.trans hl)
  cached v hv := (w.cached v hv).mono
    (fun _ _ _ => Block.code?_close.trans) subset_rfl
  declares := w.declares

def enter (w : Construction) (b : Nat) (hb : b < w.blocks.size) : Construction :=
  { w with assembly := { w.assembly with current := b }, current_lt := hb }

theorem grows_enter (hb : b < w.blocks.size) : Grows w (w.enter b hb) :=
  ⟨Nat.le_refl _, fun _ _ _ h => h, fun _ _ h => h, fun _ _ => rfl, rfl, rfl⟩

theorem enter_grows (hb : b < w.blocks.size) : Grows (w.enter b hb) w :=
  ⟨Nat.le_refl _, fun _ _ _ h => h, fun _ _ h => h, fun _ _ => rfl, rfl, rfl⟩

/-- Adds a block below another one. -/
def push (w : Construction) (stem : String) (hstem : IsStem stem) (parent : Nat) (hparent : parent < w.blocks.size) :
    Construction where
  assembly := { w.assembly with
    labels := w.assembly.labels + 1
    blocks := w.blocks.push { label := stem ++ toString (w.assembly.labels + 1) } }
  above := Function.update w.above w.blocks.size (insert w.blocks.size (w.above parent))
  arranged := by
    apply w.arranged.push hparent
    intro c hc
    have hnew : Numbered (w.assembly.labels + 1) (stem ++ toString (w.assembly.labels + 1)) := ⟨stem, hstem, rfl⟩
    by_cases hzero : c = 0
    · rw [hzero, w.entry_label] at hc
      exact not_numbered_entry _ (Option.some.inj hc ▸ hnew)
    · obtain ⟨n, hn, hold⟩ := w.numbered c _ hzero hc
      exact absurd (hold.unique hnew) (by omega)
  current_lt := by
    rw [Array.size_push]
    exact w.current_lt.trans (Nat.lt_succ_self _)
  lt_results c k id j hcode := w.lt_results c k id j (Block.code?_push.symm.trans hcode)
  entry_label := by
    rw [Block.label?_push, if_neg w.size_pos.ne]
    exact w.entry_label
  numbered c l hc hl := by
    rw [Block.label?_push] at hl
    split at hl
    · exact ⟨w.assembly.labels + 1, Nat.le_refl _, stem, hstem, (Option.some.inj hl).symm⟩
    · obtain ⟨n, hn, hnumbered⟩ := w.numbered c l hc hl
      exact ⟨n, hn.trans (Nat.le_succ _), hnumbered⟩
  cached v hv := (w.cached v hv).mono
    (fun _ _ _ => Block.code?_push.trans) (Function.update_of_ne w.size_pos.ne ..).ge
  declares := w.declares

/-! ### Runs -/

section

variable {α β : Type} {part : Assembling α} {f : α → Assembling β} {Q Q' : Construction → α → Prop}
  {R : Construction → β → Prop}

/-- When a part of an assembly ends well, it leaves a construction that has grown, of which something is
known. -/
def Steps (w : Construction) (part : Assembling α) (Q : Construction → α → Prop) : Prop :=
  ∀ x a', part.from w.assembly = (.ok x, a') → ∃ w', w'.assembly = a' ∧ Grows w w' ∧ Q w' x

theorem Steps.of_run (w' : Construction) {x : α} (hrun : part.from w.assembly = (.ok x, w'.assembly))
    (h : Grows w w') (hq : Q w' x) : w.Steps part Q := by
  intro y a' hy
  cases hrun.symm.trans hy
  exact ⟨w', rfl, h, hq⟩

theorem Steps.pure {x : α} (h : Q w x) : w.Steps (pure x) Q := .of_run _ rfl (.refl w) h

theorem Steps.throw (e : Failure) : w.Steps (throw e : Assembling α) Q := by
  intro x a' h
  cases h

theorem Steps.bind (h : w.Steps part Q) (hf : ∀ w' x, Grows w w' → Q w' x → w'.Steps (f x) R) :
    w.Steps (part >>= f) R := by
  intro y a'' hrun
  obtain ⟨x, a', hpart, hrest⟩ := Outcome.run_bind_cases hrun
  obtain ⟨w', rfl, hgrows, hq⟩ := h x a' hpart
  obtain ⟨w'', rfl, hgrows', hr⟩ := hf w' x hgrows hq y a'' hrest
  exact ⟨w'', rfl, hgrows.trans hgrows', hr⟩

theorem Steps.imp (h : w.Steps part Q) (himp : ∀ w' x, Grows w w' → Q w' x → Q' w' x) : w.Steps part Q' := by
  intro x a' hrun
  obtain ⟨w', hassembly, hgrows, hq⟩ := h x a' hrun
  exact ⟨w', hassembly, hgrows, himp w' x hgrows hq⟩

/-- When a part of a lowering ends well, it leaves a later construction, of which something is known. -/
def Holds (w : Construction) (part : Assembling α) (Q : Construction → α → Prop) : Prop :=
  w.Steps part fun w' x => Later w w' ∧ Q w' x

theorem Holds.pure {x : α} (h : Q w x) : w.Holds (pure x) Q := Steps.pure ⟨.refl w, h⟩

theorem Holds.throw (e : Failure) : w.Holds (throw e : Assembling α) Q := Steps.throw e

theorem Holds.bind (h : w.Holds part Q) (hf : ∀ w' x, Below w w' → Q w' x → w'.Holds (f x) R) :
    w.Holds (part >>= f) R := by
  refine Steps.bind h fun w' x _ hq => ?_
  refine (hf w' x hq.1.toBelow hq.2).imp fun w'' y _ hr => ?_
  exact ⟨hq.1.trans hr.1, hr.2⟩

theorem Holds.imp (h : w.Holds part Q) (himp : ∀ w' x, Below w w' → Q w' x → Q' w' x) : w.Holds part Q' :=
  Steps.imp h fun w' x _ hq => ⟨hq.1, himp w' x hq.1.toBelow hq.2⟩

theorem Holds.forM {xs : List β} {g : β → Assembling Unit}
    (h : ∀ w' x, x ∈ xs → Below w w' → w'.Holds (g x) fun _ _ => True) :
    w.Holds (xs.forM g) fun _ _ => True := by
  induction xs generalizing w with
  | nil => exact Holds.pure trivial
  | cons x xs ih =>
    show w.Holds (g x >>= fun _ => xs.forM g) _
    have hfirst := h w x List.mem_cons_self ((Grows.refl w).below rfl)
    refine hfirst.bind fun w' _ hbelow _ => ih fun w'' y hy hbelow' => ?_
    exact h w'' y (List.mem_cons_of_mem _ hy) (hbelow.trans hbelow')

end

/-! ### Rules -/

section

open Assembling (emitTo emit run)

variable {i : Instruction} {t : Terminator}

/-- The current block is the same, and none has been opened. -/
structure Stays (w w' : Construction) : Prop where
  current : w'.current = w.current
  opens : ∀ b, w'.Open b → w.Open b

theorem steps_emitTo (hb : b < w.blocks.size) (hoperands : ∀ v ∈ i.operands, w.Knows b v) :
    w.Steps (emitTo b i) fun w' v => Stays w w' ∧ w'.Knows b v := by
  refine .of_run (w.place b i hoperands) rfl ?_ ⟨?_, ?_⟩
  · exact ⟨Block.size_place.ge, fun _ _ _ => Block.code?_place_of_some, fun _ _ => Block.label?_place.trans,
      fun _ _ => rfl, rfl, rfl⟩
  · refine ⟨rfl, fun c hc => ⟨hc.1.trans_eq Block.size_place, ?_⟩⟩
    exact Block.terminator?_place.symm.trans hc.2
  · intro id type hresult
    cases hresult
    exact ⟨b, w.arranged.self b hb, _, i, Block.code?_place_self hb, rfl⟩

theorem steps_run (hoperands : ∀ v ∈ i.operands, w.Here v) : w.Steps (run i) fun w' _ => Stays w w' :=
  (steps_emitTo w.current_lt hoperands).bind fun _ _ _ h => .pure h.1

theorem steps_close (hoperands : ∀ v ∈ t.operands, w.Knows b v) (htargets : ∀ l ∈ t.targets, w.Leads b l) :
    w.Steps (Assembling.close b t) fun w' _ => w'.current = w.current ∧ ∀ c, w'.Open c → w.Open c ∧ c ≠ b := by
  refine .of_run (w.close b t hoperands htargets) rfl ?_ ⟨rfl, ?_⟩
  · exact ⟨Block.size_close.ge, fun _ _ _ => Block.code?_close.trans, fun _ _ => Block.label?_close.trans,
      fun _ _ => rfl, rfl, rfl⟩
  · intro c ⟨hlt, hnone⟩
    have hlt' : c < w.blocks.size := hlt.trans_eq Block.size_close
    have hne : c ≠ b := by
      intro heq
      have hsome : terminator? (Block.close w.blocks b t) c = some t := heq ▸ Block.terminator?_close_self hlt'
      exact absurd (hsome.symm.trans hnone) (Option.some_ne_none t)
    exact ⟨⟨hlt', (Block.terminator?_close_of_ne hne).symm.trans hnone⟩, hne⟩

theorem steps_leave (hoperands : ∀ v ∈ t.operands, w.Here v) (htargets : ∀ l ∈ t.targets, w.Leads w.current l) :
    w.Steps (Assembling.leave t) fun w' _ =>
      w'.current = w.current ∧ ∀ c, w'.Open c → w.Open c ∧ c ≠ w.current :=
  steps_close (b := w.current) hoperands htargets

theorem steps_jump {l : String} (hl : w.Leads w.current l) :
    w.Steps (Assembling.leave (.jump l)) fun w' _ =>
      w'.current = w.current ∧ ∀ c, w'.Open c → w.Open c ∧ c ≠ w.current :=
  steps_leave (fun _ hv => absurd hv List.not_mem_nil) (List.forall_mem_singleton.mpr hl)

theorem steps_enter (hb : b < w.blocks.size) :
    w.Steps (Assembling.enter b) fun w' _ => w'.current = b ∧ ∀ c, w'.Open c → w.Open c :=
  .of_run (w.enter b hb) rfl (grows_enter hb) ⟨rfl, fun _ hc => hc⟩

structure Pushed (w w' : Construction) (parent : Nat) (x : Nat × String) : Prop where
  current : w'.current = w.current
  label : label? w'.blocks x.1 = some x.2
  above : w'.above x.1 = insert x.1 (w'.above parent)
  opens : ∀ b, w'.Open b → w.Open b ∨ b = x.1

theorem Pushed.leads {parent : Nat} {x : Nat × String} (h : Pushed w w' parent x) : w'.Leads parent x.2 :=
  ⟨x.1, h.label, h.above.le⟩

theorem Pushed.leads_self {parent : Nat} {x : Nat × String} (h : Pushed w w' parent x) : w'.Leads x.1 x.2 :=
  ⟨x.1, h.label, Set.subset_insert ..⟩

theorem Pushed.under {parent : Nat} {x : Nat × String} (h : Pushed w w' parent x) : w'.Under parent x.1 :=
  ⟨Block.lt_size_of_label? h.label, (Set.subset_insert ..).trans h.above.ge⟩

theorem steps_block (stem : String) (hstem : IsStem stem) {parent : Nat} (hparent : parent < w.blocks.size) :
    w.Steps (Assembling.block stem) fun w' x => Pushed w w' parent x := by
  have hold : ∀ c, c < w.blocks.size → (w.push stem hstem parent hparent).above c = w.above c :=
    fun c hc => Function.update_of_ne hc.ne ..
  refine .of_run (w.push stem hstem parent hparent) rfl ?_ ?_
  · refine ⟨?_, fun _ _ _ => Block.code?_push.trans, fun c l hl => ?_, hold, rfl, rfl⟩
    · exact (Nat.le_succ _).trans_eq (Array.size_push _).symm
    · exact (Block.label?_push.trans (if_neg (Block.lt_size_of_label? hl).ne)).trans hl
  · refine ⟨rfl, Block.label?_push.trans (if_pos rfl), ?_, ?_⟩
    · rw [hold parent hparent]
      exact Function.update_self ..
    · intro b ⟨hlt, hnone⟩
      have hlt' : b < w.blocks.size + 1 := hlt.trans_eq (Array.size_push _)
      by_cases hb : b = w.blocks.size
      · exact .inr hb
      · exact .inl ⟨by omega, Block.terminator?_push.symm.trans hnone⟩

/-! ### Instructions -/

theorem holds_emitTo (hb : b < w.blocks.size) (hoperands : ∀ v ∈ i.operands, w.Knows b v) :
    w.Holds (emitTo b i) fun w' v => w'.Knows b v :=
  (steps_emitTo hb hoperands).imp fun _ _ hgrows h => ⟨hgrows.later h.1.current h.1.opens, h.2⟩

theorem holds_emit (hoperands : ∀ v ∈ i.operands, w.Here v) : w.Holds (emit i) fun w' v => w'.Here v := by
  refine (steps_emitTo w.current_lt hoperands).imp fun w' v hgrows h => ?_
  refine ⟨hgrows.later h.1.current h.1.opens, ?_⟩
  show w'.Knows w'.current v
  rw [h.1.current]
  exact h.2

theorem holds_run (hoperands : ∀ v ∈ i.operands, w.Here v) : w.Holds (run i) fun _ _ => True :=
  (holds_emit hoperands).bind fun _ _ _ _ => .pure trivial

/-- What is computed in the first block of what is known there is known there. -/
theorem holds_emitTo_entry (hoperands : ∀ v ∈ i.operands, w.Knows 0 v) :
    w.Holds (emitTo Assembling.entry i) fun w' v => w'.Knows 0 v := holds_emitTo w.size_pos hoperands

/-! ### Records -/

theorem holds_get : w.Holds get fun w' a => w' = w ∧ a = w.assembly :=
  Steps.of_run _ rfl (.refl w) ⟨.refl w, rfl, rfl⟩

/-- What is kept for the function may change as long as it is known in the first block. -/
theorem holds_modify {f : Assembly → Assembly} (h : (f w.assembly).Resembles w.assembly)
    (hcached : ∀ v, (f w.assembly).Cached v → w.Knows 0 v)
    (hdeclares : ∀ item ∈ (f w.assembly).pending, ∃ name arity, item = .declare name arity) :
    w.Holds (modify f) fun _ _ => True := by
  let w' : Construction :=
    { assembly := f w.assembly
      above := w.above
      arranged := by
        rw [h.blocks]
        exact w.arranged
      current_lt := by
        rw [h.current, h.blocks]
        exact w.current_lt
      lt_results := by
        rw [h.results, h.blocks]
        exact w.lt_results
      entry_label := by
        rw [h.blocks]
        exact w.entry_label
      numbered := by
        rw [h.labels, h.blocks]
        exact w.numbered
      cached := by
        rw [h.blocks]
        exact hcached
      declares := hdeclares }
  have hlater : Later w w' := .of_eq h.blocks rfl h.current h.items h.name
  exact Steps.of_run w' rfl hlater.toGrows ⟨hlater, trivial⟩

end

end Construction

end StreamLoom.Llvm
