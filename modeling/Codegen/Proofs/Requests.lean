import Codegen.Proofs.Conversion

/-!
# What a conversion asks for

The conversion of an instruction asks for the operands of the instruction, and that of a phi for
none of them: it makes do with leaves, since it reads what was computed before the block was
entered. Whatever else makes a conversion or a builder stop, it is not said to be that operands
depend on each other: this error has a single origin.

## Main definitions

* `Stop.isCycle`: the error that operands depend on each other.
* `Plain`, `Plainly`: questions and operations that do not stop with this error.
* `Conversion.Asks`: a conversion that asks for some operands, and does not stop with this error.

## Main results

* `X86.asks_converter`: a conversion asks for operands of its instruction, and that of a phi for
  none.
* `Builder.plainly_make`, `Builder.plainly_prepend`: making and chaining nodes.
-/

namespace Codegen

/-! ### The error -/

/-- The cause is that operands depend on each other. -/
def Cause.isCycle : Cause → Bool
  | .cycle _ => true
  | _ => false

/-- The error says that operands depend on each other. -/
def Stop.isCycle : Stop → Bool
  | .error e => e.cause.isCycle
  | .fault _ => false

@[simp] theorem Stop.isCycle_within (place : Place) (e : Stop) :
    (e.within place).isCycle = e.isCycle := by
  cases e <;> rfl

@[simp] theorem Source.isCycle_unsupported (src : Source) (i : InstrId) (o : Obstacle) :
    (src.unsupported i o).isCycle = false := rfl

section Plain

variable {α β σ : Type}

/-- A question that does not stop because operands depend on each other. -/
def Plain (q : Except Stop α) : Prop := ∀ e, q = .error e → e.isCycle = false

theorem plain_pure (a : α) : Plain (pure a : Except Stop α) :=
  fun _ h => absurd h Except.pure_ne_error

theorem plain_throw {e : Stop} (h : e.isCycle = false) : Plain (throw e : Except Stop α) :=
  fun _ he => Except.throw_eq_error.1 he ▸ h

/-- A fault says nothing about operands. -/
@[simp] theorem plain_lift (x : Except Fault α) : Plain (liftM x : Except Stop α) := by
  intro e h
  cases x with
  | ok a => cases h
  | error f =>
    cases h
    rfl

theorem Plain.bind {q : Except Stop α} {f : α → Except Stop β} (hq : Plain q)
    (hf : ∀ a, Plain (f a)) : Plain (q >>= f) := by
  intro e h
  rcases Except.bind_eq_error.1 h with h | ⟨a, -, h⟩
  · exact hq e h
  · exact hf a e h

theorem Plain.ite {p : Prop} [Decidable p] {q q' : Except Stop α} (hq : Plain q)
    (hq' : Plain q') : Plain (if p then q else q') := by
  split
  · exact hq
  · exact hq'

theorem plain_mapM {f : α → Except Stop β} (hf : ∀ a, Plain (f a)) (l : List α) :
    Plain (l.mapM f) := by
  intro e h
  obtain ⟨a, -, ha⟩ := Except.exists_of_mapM_eq_error h
  exact hf a e ha

/-- Whatever stops the operation, it is not that operands depend on each other. -/
def Plainly (x : EStateM Stop σ α) : Prop := ∀ s e t, x s = .error e t → e.isCycle = false

theorem plainly_pure (a : α) : Plainly (pure a : EStateM Stop σ α) :=
  fun _ _ _ h => absurd h EStateM.pure_ne_error

theorem plainly_throw {e : Stop} (h : e.isCycle = false) :
    Plainly (throw e : EStateM Stop σ α) :=
  fun _ _ _ he => (EStateM.throw_eq_error.1 he).1 ▸ h

theorem plainly_set (s : σ) : Plainly (set s : EStateM Stop σ PUnit) := fun _ _ _ h => nomatch h

theorem plainly_get_bind {f : σ → EStateM Stop σ α} (hf : ∀ s, Plainly (f s)) :
    Plainly (get >>= f) := fun s => hf s s

theorem Plain.lift {q : Except Stop α} (hq : Plain q) : Plainly (liftM q : EStateM Stop σ α) :=
  fun _ e _ h => hq e (liftStop_eq_error.1 h).1

theorem Plainly.bind {x : EStateM Stop σ α} {f : α → EStateM Stop σ β} (hx : Plainly x)
    (hf : ∀ a, Plainly (f a)) : Plainly (x >>= f) := by
  intro s e t h
  rcases EStateM.bind_eq_error.1 h with h | ⟨a, u, -, h⟩
  · exact hx s e t h
  · exact hf a u e t h

theorem Plainly.ite {p : Prop} [Decidable p] {x y : EStateM Stop σ α} (hx : Plainly x)
    (hy : Plainly y) : Plainly (if p then x else y) := by
  split
  · exact hx
  · exact hy

end Plain

/-! ### Conversions -/

namespace Conversion

variable {ω α β : Type} {reads : ValueId → Prop} {P : α → Prop} {R : β → Prop}

/-- A conversion that asks only for operands with `reads`, does not stop because operands depend on
each other, and ends with an answer that has property `P`. -/
def Asks (reads : ValueId → Prop) (P : α → Prop) : Conversion ω α → Prop
  | done a => P a
  | stop e => e.isCycle = false
  | inst _ _ next => ∀ n, Asks reads P (next n)
  | imm _ _ next => ∀ n, Asks reads P (next n)
  | vreg _ next => ∀ n, Asks reads P (next n)
  | slot _ next => ∀ n, Asks reads P (next n)
  | block _ next => ∀ n, Asks reads P (next n)
  | operand v next => reads v ∧ ∀ r, Asks reads P (next r)
  | leaf _ next => ∀ n, Asks reads P (next n)

@[simp] theorem asks_bind {c : Conversion ω α} {k : α → Conversion ω β} :
    (c >>= k).Asks reads R ↔ c.Asks reads fun a => (k a).Asks reads R := by
  change (c.bind k).Asks reads R ↔ _
  induction c with
  | done a => rfl
  | stop e => rfl
  | inst op args next ih => exact forall_congr' ih
  | imm x bits next ih => exact forall_congr' ih
  | vreg r next ih => exact forall_congr' ih
  | slot m next ih => exact forall_congr' ih
  | block b next ih => exact forall_congr' ih
  | operand v next ih => exact and_congr_right fun _ => forall_congr' ih
  | leaf v next ih => exact forall_congr' ih

@[simp] theorem asks_pure {a : α} : (pure a : Conversion ω α).Asks reads P ↔ P a := .rfl

@[simp] theorem asks_throw {e : Stop} :
    (throw e : Conversion ω α).Asks reads P ↔ e.isCycle = false := .rfl

@[simp] theorem asks_lift {q : Except Stop α} :
    (liftM q : Conversion ω α).Asks reads P ↔ Plain q ∧ ∀ a, q = .ok a → P a := by
  cases q with
  | ok a =>
    refine asks_pure.trans ?_
    simp [Plain]
  | error e =>
    refine asks_throw.trans ?_
    simp [Plain]

@[simp] theorem asks_ite {p : Prop} [Decidable p] {c c' : Conversion ω α} :
    (if p then c else c').Asks reads P ↔ (p → c.Asks reads P) ∧ (¬p → c'.Asks reads P) := by
  by_cases hp : p <;> simp [hp]

@[simp] theorem asks_map {c : Conversion ω α} {f : α → β} :
    (f <$> c).Asks reads R ↔ c.Asks reads fun a => R (f a) := asks_bind

@[simp] theorem asks_makeInst {op : ω} {args : List NodeRef} {P : NodeId → Prop} :
    (makeInst op args).Asks reads P ↔ ∀ n, P n := .rfl

@[simp] theorem asks_makeBlock {b : BlockId} {P : NodeId → Prop} :
    (makeBlock b : Conversion ω NodeId).Asks reads P ↔ ∀ n, P n := .rfl

@[simp] theorem asks_makeOperand {v : ValueId} {P : NodeRef → Prop} :
    (makeOperand v : Conversion ω NodeRef).Asks reads P ↔ reads v ∧ ∀ r, P r := .rfl

@[simp] theorem asks_makeLeaf {v : ValueId} {P : NodeId → Prop} :
    (makeLeaf v : Conversion ω NodeId).Asks reads P ↔ ∀ n, P n := .rfl

theorem asks_mapM {f : α → Conversion ω β} (hf : ∀ a (R : β → Prop), (∀ b, R b) →
    (f a).Asks reads R) {P : List β → Prop} (hP : ∀ bs, P bs) (l : List α) :
    (l.mapM f).Asks reads P := by
  induction l generalizing P with
  | nil => exact hP []
  | cons a l ih =>
    rw [List.mapM_cons, asks_bind]
    refine hf a _ fun b => ?_
    rw [asks_bind]
    exact ih fun bs => hP (b :: bs)

end Conversion

namespace X86

open Conversion (asks_bind asks_pure asks_throw asks_lift asks_ite asks_map asks_makeInst
  asks_makeBlock asks_makeOperand asks_makeLeaf asks_mapM)

variable {src : Source} {c : Context} {i : InstrId} {v : ValueId} {reads : ValueId → Prop}

/-! ### The questions of the rules -/

@[simp] theorem plain_requireInt32 (t : TypeId) : Plain (requireInt32 src i t) :=
  .ite ((plain_lift _).bind fun _ => plain_throw rfl) (plain_pure _)

@[simp] theorem plain_slotOperand (addr : ValueId) : Plain (slotOperand src c i addr) := by
  unfold slotOperand
  split
  · exact plain_pure _
  · exact (plain_lift _).bind fun _ => plain_throw rfl

@[simp] theorem plain_immOperand (v : ValueId) : Plain (immOperand src c i v) := by
  refine (plain_lift _).bind fun d => (plain_lift _).bind fun t => (plain_lift _).bind fun _ => ?_
  split
  · exact plain_pure _
  · exact (plain_lift _).bind fun _ => plain_throw rfl

theorem plain_incomingFrom (incoming : List (ValueId × BlockId)) (p : BlockId) :
    Plain (incomingFrom src i incoming p) := by
  unfold incomingFrom
  split
  · exact plain_pure _
  · exact (plain_lift _).bind fun _ => plain_throw rfl

@[simp] theorem plain_incomings (incoming : List (ValueId × BlockId)) :
    Plain (incomings src i incoming) := by
  have hall (preds : List BlockId) : Plain (preds.mapM (incomingFrom src i incoming)) :=
    plain_mapM (plain_incomingFrom incoming) preds
  refine (plain_lift _).bind fun ins => ?_
  cases ins.block with
  | some b =>
    refine (plain_lift _).bind fun blk => (plain_pure _).bind fun preds => ?_
    exact .ite ((plain_throw rfl).bind fun _ => hall preds) (hall preds)
  | none =>
    refine (plain_throw rfl).bind fun preds => ?_
    exact .ite ((plain_throw rfl).bind fun _ => hall preds) (hall preds)

@[simp] theorem plain_comparison (p : Predicate) (x y : ValueId) :
    Plain (comparison src c i p x y) := by
  unfold comparison
  split
  · refine (plain_lift _).bind fun t => (plain_requireInt32 t).bind fun _ => ?_
    refine (plain_lift _).bind fun d => .ite ((plain_lift _).bind fun d' => ?_) (plain_pure _)
    exact .ite (plain_pure _) (plain_pure _)
  · exact plain_throw rfl

@[simp] theorem plain_slotFor (f : Func) : Plain (c.slotFor f i) := by
  refine (plain_lift _).bind fun ins => ?_
  split
  · split
    · exact plain_pure _
    · exact (plain_lift _).bind fun _ => plain_throw rfl
  · exact plain_throw rfl

/-! ### The rules -/

theorem asks_valueNode {P : NodeRef × Bool → Prop} {leaf : Bool} (hv : leaf = false → reads v)
    (hP : ∀ a, P a) : (valueNode src c i v leaf).Asks reads P := by
  cases leaf <;> simp [valueNode, hv, hP]

theorem asks_regNode {P : NodeRef → Prop} (hv : reads v) (hP : ∀ r, P r) :
    (regNode src c i v).Asks reads P := by
  refine asks_bind.2 (asks_valueNode (fun _ => hv) fun a => ?_)
  simp [hP]

theorem asks_slotNode {P : NodeRef → Prop} (hv : reads v) (hP : ∀ r, P r) :
    (slotNode src c i v).Asks reads P := by
  simp [slotNode, hv, hP]

/-- A phi asks for leaves. -/
theorem asks_convertPhi {t : TypeId} {incoming : List (ValueId × BlockId)} :
    (convertPhi src c i t incoming).Asks reads fun _ => True := by
  simp only [convertPhi, asks_ite, asks_bind, asks_lift, asks_throw, asks_makeInst]
  refine ⟨fun _ => ⟨plain_lift _, fun _ _ => rfl⟩, fun _ => ⟨plain_incomings _, fun incs _ => ?_⟩⟩
  refine asks_mapM (fun inc R hR => ?_) (fun _ _ => trivial) incs
  exact asks_bind.2 (asks_valueNode (by simp) fun a => by simp [hR])

theorem asks_convertLoad {t : TypeId} {addr : ValueId} (hv : reads addr) :
    (convertLoad src c i t addr).Asks reads fun _ => True := by
  simp only [convertLoad, asks_bind, asks_lift, plain_requireInt32, true_and]
  exact fun _ _ => asks_slotNode hv fun r => by simp

theorem asks_convertStore {w addr : ValueId} (hw : reads w) (hv : reads addr) :
    (convertStore src c i w addr).Asks reads fun _ => True := by
  simp only [convertStore, asks_bind, asks_lift, plain_requireInt32, plain_lift, true_and]
  exact fun _ _ _ _ => asks_slotNode hv fun r => asks_valueNode (fun _ => hw) fun a => by simp

/-- Two values are asked for one after the other. -/
theorem asks_pair {x y : ValueId} (hx : reads x) (hy : reads y) {m : Bool → Opcode} :
    (do let lhs ← regNode src c i x
        let (rhs, isConst) ← valueNode src c i y false
        Conversion.makeInst (m isConst) [lhs, rhs]).Asks reads fun _ => True :=
  asks_bind.2 (asks_regNode hx fun _ => asks_bind.2 (asks_valueNode (fun _ => hy) fun a => by simp))

theorem asks_convertBinary {o : BinaryOp} {t : TypeId} {x y : ValueId} (hx : reads x)
    (hy : reads y) : (convertBinary src c i o t x y).Asks reads fun _ => True := by
  unfold convertBinary
  cases binaryOpcodes o with
  | none => exact asks_throw.2 rfl
  | some ops =>
    refine asks_bind.2 (asks_lift.2 ⟨plain_requireInt32 t, fun _ _ => ?_⟩)
    exact asks_pair (m := fun isConst => if isConst then ops.2 else ops.1) hx hy

theorem asks_convertIcmp {p : Predicate} {x y : ValueId} (hx : reads x) (hy : reads y) :
    (convertIcmp src c i p x y).Asks reads fun _ => True := by
  refine asks_bind.2 (asks_lift.2 ⟨plain_comparison p x y, fun cmp hcmp => ?_⟩)
  have hreads : reads cmp.x ∧ reads cmp.y := by
    cases (comparison_eq_ok hcmp).2
    · exact ⟨hx, hy⟩
    · exact ⟨hy, hx⟩
  exact asks_pair (m := fun isConst => if isConst then .cmpri32 else .cmprr32) hreads.1 hreads.2

theorem asks_convertCondBr {block : Option BlockId} {cond : ValueId} {l e : BlockId}
    (hv : reads cond) : (convertCondBr src c i block cond l e).Asks reads fun _ => True := by
  refine asks_bind.2 (asks_lift.2 ⟨plain_lift _, fun cmp? _ => ?_⟩)
  cases cmp? with
  | none => simp
  | some cmp =>
    obtain ⟨j, p, x, y⟩ := cmp
    simp [hv]

theorem asks_convertRet {w : Option ValueId} (hv : ∀ v ∈ w, reads v) :
    (convertRet src c i w).Asks reads fun _ => True := by
  cases w with
  | none => exact asks_throw.2 rfl
  | some w =>
    simp only [convertRet, asks_bind, asks_lift, plain_requireInt32, plain_lift, true_and]
    exact fun _ _ _ _ => asks_valueNode (fun _ => hv w rfl) fun a => by simp

/-- The operands that the conversion of an instruction may ask for: those that it reads, unless it
is a phi. -/
def Reads (f : Func) (i : InstrId) (v : ValueId) : Prop :=
  ∃ op, f.opOf i = some op ∧ op.isPhi = false ∧ v ∈ op.args

theorem asks_converter (src : Source) (c : Context) (i : InstrId) :
    (converter src c i).Asks (Reads src.func i) fun _ => True := by
  refine asks_bind.2 (asks_lift.2 ⟨plain_lift _, fun ins hins => ?_⟩)
  have hins : src.func.instrs[i]? = some ins := Func.instr_eq_ok.1 (liftFault_eq_ok.1 hins)
  cases hop : ins.op with
  | none => exact asks_throw.2 rfl
  | some op =>
    have hreads (hphi : op.isPhi = false) : ∀ v ∈ op.args, Reads src.func i v := fun v hv =>
      ⟨op, by simp [Func.opOf, hins, hop], hphi, hv⟩
    cases op with
    | alloca t e k a => simp
    | phi t incoming => exact asks_bind.2 asks_convertPhi
    | load t addr =>
      exact asks_bind.2 (asks_convertLoad (hreads rfl addr (by simp [Operation.args])))
    | store w addr =>
      exact asks_bind.2 (asks_convertStore (hreads rfl w (by simp [Operation.args]))
        (hreads rfl addr (by simp [Operation.args])))
    | binary o t x y =>
      exact asks_bind.2 (asks_convertBinary (hreads rfl x (by simp [Operation.args]))
        (hreads rfl y (by simp [Operation.args])))
    | icmp p t x y =>
      exact asks_bind.2 (asks_convertIcmp (hreads rfl x (by simp [Operation.args]))
        (hreads rfl y (by simp [Operation.args])))
    | br target => simp [convertBr]
    | condBr cond l e => exact asks_convertCondBr (hreads rfl cond (by simp [Operation.args]))
    | ret w =>
      refine asks_bind.2 (asks_convertRet fun v hv => hreads rfl v ?_)
      simpa [Operation.args] using hv
    | sext | zext | getElementPtr | call => exact asks_throw.2 rfl

end X86

/-! ### The operations of a builder -/

namespace Builder

variable {ω : Type} {src : Source}

theorem plainly_checkLimit : Plainly (checkLimit : Build ω Unit) :=
  plainly_get_bind fun _ => .ite (plainly_throw rfl) (plainly_pure _)

theorem plainly_push (node : Node ω) : Plainly (push node) := fun _ _ _ h => nomatch h

theorem plainly_make (payload : Payload ω) (args : List NodeRef) : Plainly (make payload args) :=
  plainly_checkLimit.bind fun _ => plainly_get_bind fun _ => plainly_push _

theorem plainly_makeBlock (b : BlockId) : Plainly (makeBlock b : Build ω NodeId) :=
  plainly_checkLimit.bind fun _ => plainly_get_bind fun _ =>
    (plain_lift _).lift.bind fun _ => plainly_push _

theorem plain_valueReg (c : Context) (types : TypeTable) (v : ValueId) :
    Plain (c.valueReg types v) :=
  (plain_lift _).bind fun _ =>
    .ite (plain_pure _) ((plain_lift _).bind fun _ => plain_throw rfl)

theorem plain_leafPayload (c : Context) (v : ValueId) :
    Plain (leafPayload src c v : Except Stop (Payload ω)) := by
  unfold leafPayload
  split
  · exact plain_pure _
  · refine (plain_lift _).bind fun d => .ite ?_ ?_
    · exact (plain_lift _).bind fun _ => (plain_lift _).bind fun _ => plain_pure _
    · exact (plain_valueReg c src.types v).bind fun _ => plain_pure _

theorem plainly_makeLeaf (v : ValueId) : Plainly (makeLeaf src v : Build ω NodeId) :=
  plainly_get_bind fun s => (plain_leafPayload s.context v).lift.bind fun _ => plainly_make _ _

theorem plain_producer? (c : Context) (b : BlockId) (v : ValueId) :
    Plain (producer? src c b v) := by
  refine .ite (plain_pure _) ((plain_lift _).bind fun d => ?_)
  cases d.instr with
  | none => exact plain_pure _
  | some i => exact (plain_lift _).bind fun _ => .ite (plain_pure _) (plain_pure _)

theorem plainly_memoOf (i : InstrId) : Plainly (memoOf i : Build ω Memo) := by
  refine plainly_get_bind fun s => ?_
  cases s.memo[i]? with
  | some m => exact plainly_pure m
  | none => exact plainly_throw rfl

theorem plainly_chainOf (i : InstrId) : Plainly (chainOf i : Build ω (List NodeRef)) :=
  (plainly_memoOf i).bind fun m => by cases m <;> exact plainly_pure _

theorem plainly_prepend (i : InstrId) (head r : NodeRef) :
    Plainly (prepend i head r : Build ω NodeRef) := by
  refine plainly_get_bind fun s => (plain_lift _).lift.bind fun node => ?_
  refine .ite ((plainly_throw rfl).bind fun _ => ?_) ?_
  all_goals
    refine .ite ((plainly_throw rfl).bind fun _ => ?_) ?_
    all_goals
      exact (plainly_set _).bind fun _ => plainly_pure r

end Builder

end Codegen
