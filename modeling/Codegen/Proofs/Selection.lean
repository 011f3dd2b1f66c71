import Codegen.Proofs.Machine

/-!
# What is selected for an instruction

The rules of selection ask the context for registers, slots and labels. Once the context is ready
the answers are known, so that the selected instructions can be described without it: operands are
the registers of values, or immediates for constants, and slots and labels are those of the
function. No rule changes the context.

## Main definitions

* `X86.Stands`: the operand that stands for a value.
* `X86.Selected`: the instructions that are selected for an operation.

## Main results

* `X86.select_eq_ok`: selecting leaves a ready context as it is and gives what is described.
-/

namespace Codegen.X86

variable {src : Source} {c c' : Context} {i : InstrId} {v : ValueId}

/-! ### Operands -/

/-- A value that selection takes for a constant: it is no argument and no inserted instruction
produces it. -/
def Unproduced (f : Func) (v : ValueId) (x : Value) : Prop :=
  x.producerIn f.inserted = none ∧ x.positionIn f.params v = none

/-- The operand that stands for a value. -/
inductive Stands (src : Source) (v : ValueId) : Operand → Prop
  /-- A value that lives in a register and is no address. -/
  | reg (hv : src.func.InRegister v)
      (ha : ∀ j, src.func.values[v]? = some (.result j) → src.func.isAlloca j = false) :
      Stands src v (.reg (src.func.regOf v))
  /-- A constant that fits. -/
  | imm {x : Value} {t : TypeId} {bits : Nat} {imm : Int32} (hx : src.func.values[v]? = some x)
      (hu : Unproduced src.func v x) (ht : src.func.valueType v = .ok t)
      (hbits : src.types.intBits t = .ok bits) (himm : imm32? x.payload bits = some imm) :
      Stands src v (.imm32 imm)

theorem unproduced_result {f : Func} {j : InstrId} :
    Unproduced f v (.result j) ↔ j ∉ f.inserted := by
  simp [Unproduced, Value.producerIn, Value.positionIn]

/-- What the context knows about a value. -/
theorem exists_definition (h : Context.Ready src.func c) {x : Value}
    (hx : src.func.values[v]? = some x) :
    ∃ d, c.definition v = .ok d ∧ d.payload = x.payload ∧ d.instr = x.producerIn src.func.inserted ∧
      (d.isConst = true ↔ Unproduced src.func v x) ∧ d.reg = src.func.regOf v := by
  obtain ⟨d, hd, hpay, hinstr, harg, hreg⟩ := h.definition hx
  refine ⟨d, Context.definition_eq_ok.2 hd, hpay, hinstr, ?_, hreg⟩
  simp [Definition.isConst, hinstr, harg, Unproduced]

/-- Only the results of inserted instructions that reserve a piece of the stack are addresses. -/
theorem slot?_eq_some (h : Context.Ready src.func c) {s : SlotId} (hs : c.slot? v = some s) :
    ∃ j, src.func.values[v]? = some (.result j) ∧ j ∈ src.func.inserted ∧
      src.func.isAlloca j = true ∧ s = src.func.slotOf j := by
  rw [h.slot] at hs
  obtain ⟨j, hj, hs⟩ := Option.bind_eq_some_iff.1 hs
  obtain ⟨x, hx, hp⟩ := Option.bind_eq_some_iff.1 hj
  obtain ⟨rfl, hj⟩ := Context.producerIn_eq_some.1 hp
  split at hs
  · next ha => exact ⟨j, hx, hj, ha, (Option.some.inj hs).symm⟩
  · cases hs

theorem isAlloca_of_slot?_eq_none (h : Context.Ready src.func c) {j : InstrId}
    (hs : c.slot? v = none) (hv : src.func.values[v]? = some (.result j))
    (hj : j ∈ src.func.inserted) : src.func.isAlloca j = false := by
  rw [h.slot, hv] at hs
  simpa [Value.producerIn, hj] using hs

/-- The register that holds a value which is no constant and no address. -/
theorem valueReg_eq_ok (h : Context.Ready src.func c) {x : Value}
    (hx : src.func.values[v]? = some x) (hslot : c.slot? v = none)
    (hnot : ¬Unproduced src.func v x) {r : Reg}
    (hr : c.valueReg src.types v = .ok r) :
    r = src.func.regOf v ∧ Stands src v (.reg (src.func.regOf v)) := by
  obtain ⟨d, hd, -, -, -, hreg⟩ := exists_definition h hx
  simp only [Context.valueReg, ite_eq_iff, Except.bind_eq_ok, liftFault_eq_ok, hd,
    Except.throw_ne_ok, Except.pure_eq_ok, and_false, exists_false, or_false, Except.ok.injEq,
    exists_eq_left', hreg] at hr
  obtain ⟨hvalid, rfl⟩ := hr
  have hv : src.func.InRegister v := by
    by_contra hv
    rw [Func.regOf_eq_invalid hv] at hvalid
    exact absurd hvalid (by decide)
  refine ⟨rfl, .reg hv fun j hj => isAlloca_of_slot?_eq_none h hslot hj ?_⟩
  obtain rfl := Option.some.inj (hx.symm.trans hj)
  simpa [unproduced_result] using hnot

/-- A register that is chosen for a value is the one of the value. -/
theorem regOperand_eq_ok (h : Context.Ready src.func c) {x : Value}
    (hx : src.func.values[v]? = some x) {r : Reg} (hr : regOperand src c i v = .ok r) :
    r = src.func.regOf v ∧ Stands src v (.reg (src.func.regOf v)) := by
  obtain ⟨d, hd, -, -, hconst, -⟩ := exists_definition h hx
  simp only [regOperand, ite_eq_iff, Except.bind_eq_ok, liftFault_eq_ok, hd, Except.throw_ne_ok,
    false_and, and_false, exists_false, false_or, Except.ok.injEq, exists_eq_left', hconst] at hr
  obtain ⟨hslot, hnot, hr⟩ := hr
  exact valueReg_eq_ok h hx (by simpa using hslot) hnot hr

/-- An operand of a value stands for it. -/
theorem valueOperand_eq_ok (h : Context.Ready src.func c) {x : Value}
    (hx : src.func.values[v]? = some x) {o : Operand} (ho : valueOperand src c i v = .ok o) :
    Stands src v o := by
  obtain ⟨d, hd, hpay, -, hconst, hreg⟩ := exists_definition h hx
  simp only [valueOperand, ite_eq_iff, Except.bind_eq_ok, liftFault_eq_ok, hd, Except.pure_eq_ok,
    Except.ok.injEq, exists_eq_left', hconst, immOperand] at ho
  rcases ho with ⟨hu, imm, himm, rfl⟩ | ⟨-, r, hr, rfl⟩
  · obtain ⟨t, ht, bits, hbits, himm⟩ := himm
    split at himm
    · next imm' himm' =>
      obtain rfl := Except.pure_eq_ok.1 himm
      exact .imm hx hu ht hbits (hpay ▸ himm')
    · simp [Except.bind_eq_ok, Except.throw_ne_ok] at himm
  · obtain ⟨rfl, hstands⟩ := regOperand_eq_ok h hx hr
    exact hstands

/-! ### Instructions -/

/-- An operation takes an operand at a position: it is of a kind that is taken there and has the
role of the position. -/
def Opcode.Admits (op : Opcode) (n : Nat) (operand : Role × Operand) : Prop :=
  ∃ spec, op.specAt n = some spec ∧ operand.1 = spec.role ∧ operand.2.kind ∈ spec.kinds

/-- An instruction whose operands are as many as its operation takes, each as the operation demands.
-/
structure Instr.Conforms (ins : Instr) : Prop where
  takes : ins.op.takes ins.operands.length = true
  operand : ∀ {k : Nat} {operand : Role × Operand}, ins.operands[k]? = some operand →
    ins.op.Admits k operand

/-- The operation and the operands of an instruction, which conforms to the operation. -/
structure Instr.Is (ins : Instr) (op : Opcode) (operands : List Operand) : Prop where
  op_eq : ins.op = op
  operands_eq : ins.operands.map Prod.snd = operands
  conforms : ins.Conforms

theorem withRoles_eq_ok {op : Opcode} {n : Nat} {operands : List Operand}
    {os : List (Role × Operand)} (h : Instr.withRoles op n operands = .ok os) :
    os.map Prod.snd = operands ∧
      ∀ k operand, os[k]? = some operand → op.Admits (n + k) operand := by
  induction operands generalizing n os with
  | nil =>
    cases h
    exact ⟨rfl, by simp⟩
  | cons o operands ih =>
    unfold Instr.withRoles at h
    split at h
    · cases h
    · next spec hspec =>
      split at h
      · next hkind =>
        simp only [Except.bind_eq_ok, Except.pure_eq_ok] at h
        obtain ⟨os, hos, rfl⟩ := h
        obtain ⟨hmap, hadmits⟩ := ih hos
        refine ⟨by rw [List.map_cons, hmap], fun k operand hk => ?_⟩
        cases k with
        | zero =>
          cases hk
          exact ⟨spec, hspec, rfl, hkind⟩
        | succ k =>
          have hnext := hadmits k operand hk
          rwa [Nat.add_assoc, Nat.add_comm 1 k] at hnext
      · cases h

/-- Making an instruction keeps its operation and its operands. -/
theorem make_eq_ok {op : Opcode} {operands : List Operand} {ins : Instr}
    (h : Instr.make op operands = .ok ins) : ins.Is op operands := by
  simp only [Instr.make, ite_eq_iff, Except.bind_eq_ok, Except.throw_ne_ok, Except.pure_eq_ok,
    false_and, and_false, exists_false, false_or] at h
  obtain ⟨htakes, os, hos, rfl⟩ := h
  obtain ⟨hmap, hadmits⟩ := withRoles_eq_ok hos
  have hlen : os.length = operands.length := by rw [← hmap, List.length_map]
  refine ⟨rfl, hmap, by simpa [hlen] using htakes, fun {k operand} hk => ?_⟩
  simpa using hadmits k operand hk

theorem requireInt32_eq_ok {t : TypeId} (h : requireInt32 src i t = .ok ()) :
    src.types.isInt t 32 = true := by
  simp only [requireInt32, ite_eq_iff, Except.bind_eq_ok, Except.throw_ne_ok, and_false,
    exists_false, false_or] at h
  simpa using h.1

theorem slotOperand_eq_ok {addr : ValueId} {s : SlotId} (h : slotOperand src c i addr = .ok s) :
    c.slot? addr = some s := by
  unfold slotOperand at h
  split at h
  · next s' hs =>
    obtain rfl := Except.pure_eq_ok.1 h
    exact hs
  · simp [Except.bind_eq_ok, Except.throw_ne_ok] at h

theorem resultReg_eq_ok (hcon : src.func.Coherent) (h : Context.Ready src.func c)
    {ins : Codegen.Instr} (hins : src.func.instrs[i]? = some ins) {r : Reg}
    (hr : c.resultReg src.func i = .ok r) :
    r = src.func.regOf ins.result ∧ src.func.InRegister ins.result ∧ i ∈ src.func.inserted := by
  obtain ⟨d, hd, -, hinstr, -, hreg⟩ := exists_definition h (hcon.result_value hins)
  simp only [Context.resultReg, ite_eq_iff, Except.bind_eq_ok, liftFault_eq_ok, Func.instr_eq_ok,
    hins, hd, Except.throw_ne_ok, Except.pure_eq_ok, false_and, and_false, exists_false, false_or,
    Except.ok.injEq, Option.some.injEq, exists_eq_left', hreg] at hr
  obtain ⟨hres, hprod, rfl⟩ := hr
  have hi : i ∈ src.func.inserted := by
    have hprod : d.instr = some i ∧ c.owner = some src.func.index := by
      simpa [Context.isProducer] using hprod
    exact (Context.producerIn_eq_some.1 (hinstr.symm.trans hprod.1)).2
  exact ⟨rfl, Func.inRegister_result hi hins (by simpa using hres), hi⟩

/-- The result of an instruction goes to its register, and the context stays as it is: the register
has the type of the instruction already. -/
theorem outputReg_eq_ok (hcon : src.func.Coherent) (h : Context.Ready src.func c)
    {ins : Codegen.Instr} (hins : src.func.instrs[i]? = some ins) {r : Reg}
    (hr : Context.outputReg src.func i ins.type c = .ok r c') :
    c = c' ∧ r = src.func.regOf ins.result ∧ src.func.InRegister ins.result ∧
      i ∈ src.func.inserted := by
  simp only [Context.outputReg, EStateM.bind_eq_ok, EStateM.get_eq_ok] at hr
  obtain ⟨_, _, ⟨rfl, rfl⟩, hr⟩ := hr
  cases hres : c.resultReg src.func i with
  | error e =>
    rw [hres] at hr
    exact absurd hr EStateM.throw_ne_ok
  | ok r' =>
    obtain ⟨rfl, hv, hi⟩ := resultReg_eq_ok hcon h hins hres
    simp only [hres, h.type_result hcon.toNaming hins hv, if_true] at hr
    obtain ⟨rfl, rfl⟩ := EStateM.pure_eq_ok.1 hr
    exact ⟨rfl, rfl, hv, hi⟩

/-! ### What is selected -/

/-- One of two machine operations: the first takes a register, the second an immediate. -/
def Operand.form (o : Operand) (rr ri : Opcode) : Opcode :=
  match o with
  | .imm32 _ => ri
  | _ => rr

/-- The operands and the jump of a comparison, perhaps with the operands exchanged. -/
inductive Compares (p : Predicate) (x y : ValueId) : ValueId → ValueId → Opcode → Prop
  | same {jump : Opcode} (h : (Cond.ofPredicate p).jump? = some jump) : Compares p x y x y jump
  | swapped {jump : Opcode} (h : (Cond.ofPredicate p).swap.jump? = some jump) :
      Compares p x y y x jump

/-- The operands of a phi for a predecessor: one for the value that comes in from it, and its label.
-/
def ComesIn (src : Source) (incoming : List (ValueId × BlockId)) (p : BlockId)
    (operands : List Operand) : Prop :=
  p < src.func.blocks.size ∧ ∃ w o, incoming.find? (·.2 == p) = some (w, p) ∧ Stands src w o ∧
    operands = [o, .label (p + 1)]

/-- The instructions that are selected for an operation in block `b` whose result is value `v`. -/
inductive Selected (src : Source) (b : BlockId) (v : ValueId) : Operation → List Instr → Prop
  | alloca {t e : TypeId} {n : UInt64} {a : UInt32} : Selected src b v (.alloca t e n a) []
  /-- The values come in from the predecessors in their order. -/
  | phi {t : TypeId} {incoming : List (ValueId × BlockId)} {ins : Instr}
      {operands : List (List Operand)}
      (hins : ins.Is .phi (.reg (src.func.regOf v) :: operands.flatten))
      (hv : src.func.InRegister v)
      (hin : List.Forall₂ (ComesIn src incoming) (src.func.predsOf b) operands) :
      Selected src b v (.phi t incoming) [ins]
  | load {t : TypeId} {addr : ValueId} {j : InstrId} {ins : Instr} (ht : src.types.isInt t 32)
      (haddr : src.func.values[addr]? = some (.result j)) (hj : src.func.isAlloca j = true)
      (hins : ins.Is .movrm32 [.reg (src.func.regOf v), .slot (src.func.slotOf j)])
      (hv : src.func.InRegister v) (hin : j ∈ src.func.inserted) :
      Selected src b v (.load t addr) [ins]
  | store {w addr : ValueId} {j : InstrId} {o : Operand} {ins : Instr} (hw : src.isWord w = true)
      (haddr : src.func.values[addr]? = some (.result j)) (hj : src.func.isAlloca j = true)
      (ho : Stands src w o)
      (hins : ins.Is (o.form .movmr32 .movmi32) [.slot (src.func.slotOf j), o])
      (hin : j ∈ src.func.inserted) : Selected src b v (.store w addr) [ins]
  /-- The left operand is copied before the other one is added or subtracted. -/
  | binary {op : BinaryOp} {t : TypeId} {x y : ValueId} {rr ri : Opcode} {o : Operand}
      {copy ins : Instr} (hop : binaryOpcodes op = some (rr, ri)) (ht : src.types.isInt t 32)
      (hx : Stands src x (.reg (src.func.regOf x))) (ho : Stands src y o)
      (hcopy : copy.Is .movrr32 [.reg (src.func.regOf v), .reg (src.func.regOf x)])
      (hins : ins.Is (o.form rr ri) [.reg (src.func.regOf v), o]) (hv : src.func.InRegister v) :
      Selected src b v (.binary op t x y) [copy, ins]
  /-- Nothing is selected for a comparison, since only branches read it. -/
  | icmp {p : Predicate} {t : TypeId} {x y : ValueId}
      (huse : ∀ u ∈ src.func.inserted, ∀ op, src.func.opOf u = some op → v ∈ op.args →
        ∃ l r, op = .condBr v l r) : Selected src b v (.icmp p t x y) []
  | br {target : BlockId} {ins : Instr} (hins : ins.Is .jmp [.label (target + 1)])
      (htarget : target < src.func.blocks.size) : Selected src b v (.br target) [ins]
  /-- A branch compares again. -/
  | condBr {cond x y x' y' : ValueId} {l r : BlockId} {j : InstrId} {p : Predicate} {t : TypeId}
      {jump : Opcode} {o : Operand} {compare taken other : Instr}
      (hcond : src.func.values[cond]? = some (.result j))
      (hj : src.func.opOf j = some (.icmp p t x y))
      (hx : src.isWord x = true) (hcmp : Compares p x y x' y' jump)
      (hx' : Stands src x' (.reg (src.func.regOf x'))) (ho : Stands src y' o)
      (hcompare : compare.Is (o.form .cmprr32 .cmpri32) [.reg (src.func.regOf x'), o])
      (htaken : taken.Is jump [.label (l + 1)]) (hother : other.Is .jmp [.label (r + 1)])
      (hl : l < src.func.blocks.size) (hr : r < src.func.blocks.size) :
      Selected src b v (.condBr cond l r) [compare, taken, other]
  | ret {w : ValueId} {o : Operand} {move ins : Instr} (hw : src.isWord w = true)
      (ho : Stands src w o) (hmove : move.Is (o.form .movrr32 .movri32) [.reg eax, o])
      (hins : ins.Is .ret []) : Selected src b v (.ret (some w)) [move, ins]

/-! ### The rules -/

section Rules

variable {code : List Instr} {ins : Codegen.Instr}

theorem isWord_of_valueType {t : TypeId} (ht : src.func.valueType v = .ok t)
    (h : src.types.isInt t 32 = true) : src.isWord v = true := by
  simpa [Source.isWord, ht] using h

theorem selectLoad_eq_ok (hcon : src.func.Coherent) (h : Context.Ready src.func c) {b : BlockId}
    (hins : src.func.instrs[i]? = some ins) {t : TypeId} {addr : ValueId} (ht : ins.type = t)
    (hsel : selectLoad src i t addr c = .ok code c') :
    c = c' ∧ Selected src b ins.result (.load t addr) code := by
  subst ht
  simp only [selectLoad, EStateM.bind_eq_ok, EStateM.get_eq_ok, liftStop_eq_ok, liftFaultStop_eq_ok,
    EStateM.pure_eq_ok] at hsel
  obtain ⟨_, _, ⟨rfl, rfl⟩, _, _, ⟨hint, rfl⟩, s, _, ⟨hslot, rfl⟩, r, c₁, hout, ins', _,
    ⟨hmake, rfl⟩, rfl, rfl⟩ := hsel
  obtain ⟨rfl, rfl, hv, -⟩ := outputReg_eq_ok hcon h hins hout
  obtain ⟨j, hj, hin, ha, rfl⟩ := slot?_eq_some h (slotOperand_eq_ok hslot)
  exact ⟨rfl, .load (requireInt32_eq_ok hint) hj ha (make_eq_ok hmake) hv hin⟩

theorem selectStore_eq_ok (h : Context.Ready src.func c) {b : BlockId} {r w addr : ValueId}
    {x : Value} (hx : src.func.values[w]? = some x)
    (hsel : selectStore src c i w addr = .ok code) : Selected src b r (.store w addr) code := by
  simp only [selectStore, Except.bind_eq_ok, liftFault_eq_ok] at hsel
  obtain ⟨t, ht, _, hint, s, hslot, o, ho, hsel⟩ := hsel
  have hword := isWord_of_valueType ht (requireInt32_eq_ok hint)
  obtain ⟨j, hj, hin, ha, rfl⟩ := slot?_eq_some h (slotOperand_eq_ok hslot)
  have hstands := valueOperand_eq_ok h hx ho
  obtain ⟨ins', hmake, rfl⟩ : ∃ ins', Instr.make (o.form .movmr32 .movmi32)
      [.slot (src.func.slotOf j), o] = .ok ins' ∧ [ins'] = code := by
    cases hstands <;>
      simpa only [Operand.form, Except.bind_eq_ok, liftFault_eq_ok, Except.pure_eq_ok] using hsel
  exact .store hword hj ha hstands (make_eq_ok hmake) hin

theorem selectBinary_eq_ok (hcon : src.func.Coherent) (h : Context.Ready src.func c) {b : BlockId}
    (hins : src.func.instrs[i]? = some ins) {op : BinaryOp} {t : TypeId} {x y : ValueId}
    (ht : ins.type = t) {vx vy : Value} (hx : src.func.values[x]? = some vx)
    (hy : src.func.values[y]? = some vy) (hsel : selectBinary src i op t x y c = .ok code c') :
    c = c' ∧ Selected src b ins.result (.binary op t x y) code := by
  subst ht
  simp only [selectBinary, EStateM.bind_eq_ok, EStateM.get_eq_ok] at hsel
  obtain ⟨_, _, ⟨rfl, rfl⟩, hsel⟩ := hsel
  cases hop : binaryOpcodes op with
  | none =>
    rw [hop] at hsel
    exact absurd hsel EStateM.throw_ne_ok
  | some ops =>
    obtain ⟨rr, ri⟩ := ops
    simp only [hop, EStateM.bind_eq_ok, liftStop_eq_ok, liftFaultStop_eq_ok] at hsel
    obtain ⟨_, _, ⟨hint, rfl⟩, lhs, _, ⟨hlhs, rfl⟩, o, _, ⟨ho, rfl⟩, r, _, hout, copy, _,
      ⟨hcopy, rfl⟩, hsel⟩ := hsel
    obtain ⟨rfl, rfl, hv, -⟩ := outputReg_eq_ok hcon h hins hout
    obtain ⟨rfl, hstandsx⟩ := regOperand_eq_ok h hx hlhs
    have hstands := valueOperand_eq_ok h hy ho
    obtain ⟨ins', hmake, rfl, rfl⟩ : ∃ ins', Instr.make (o.form rr ri)
        [.reg (src.func.regOf ins.result), o] = .ok ins' ∧ [copy, ins'] = code ∧ c = c' := by
      cases hstands <;>
        simpa only [Operand.form, EStateM.bind_eq_ok, liftFaultStop_eq_ok, EStateM.pure_eq_ok,
          and_assoc, exists_and_left, exists_eq_left'] using hsel
    exact ⟨rfl, .binary hop (requireInt32_eq_ok hint) hstandsx hstands (make_eq_ok hcopy)
      (make_eq_ok hmake) hv⟩

theorem selectIcmp_eq_ok (h : Context.Ready src.func c) {b : BlockId} {p : Predicate} {t : TypeId}
    {x y : ValueId} (hsel : selectIcmp src c i v = .ok code) :
    Selected src b v (.icmp p t x y) code := by
  simp only [selectIcmp, Except.bind_eq_ok, liftFault_eq_ok, Except.pure_eq_ok] at hsel
  obtain ⟨us, hus, ⟨⟩, huse, rfl⟩ := hsel
  simp only [Except.forM_eq_ok, Except.bind_eq_ok, liftFault_eq_ok, ite_eq_iff, Except.throw_ne_ok,
    Except.pure_eq_ok, and_false, false_or, and_true] at huse
  refine .icmp fun u hu op hop hv => ?_
  obtain ⟨l, hl, hul⟩ := Func.records_of_users h.users hu hop hv
  obtain rfl : l = us := by simpa [Context.usersOf, hl] using hus
  obtain ⟨user, huser, hbranch⟩ := huse u hul
  have hop' : user.op = some op := by
    simpa [Func.opOf, Func.instr_eq_ok.1 huser] using hop
  cases op <;> simp [branchesOn, hop'] at hbranch
  subst hbranch
  exact ⟨_, _, rfl⟩

theorem selectBr_eq_ok (h : Context.Ready src.func c) {b target : BlockId} {r : ValueId}
    (hsel : selectBr c target = .ok code) : Selected src b r (.br target) code := by
  simp only [selectBr, Except.bind_eq_ok, liftFault_eq_ok, Except.pure_eq_ok] at hsel
  obtain ⟨l, hl, ins', hmake, rfl⟩ := hsel
  obtain ⟨htarget, rfl⟩ := h.label_eq_ok.1 hl
  exact .br (make_eq_ok hmake) htarget

theorem selectRet_eq_ok (h : Context.Ready src.func c) {b : BlockId} {r : ValueId}
    {w : Option ValueId} (hx : ∀ v ∈ w, ∃ x, src.func.values[v]? = some x)
    (hsel : selectRet src c i w = .ok code) : Selected src b r (.ret w) code := by
  cases w with
  | none => cases hsel
  | some w =>
    obtain ⟨x, hx⟩ := hx w rfl
    simp only [selectRet, Except.bind_eq_ok, liftFault_eq_ok] at hsel
    obtain ⟨t, ht, _, hint, o, ho, hsel⟩ := hsel
    have hword := isWord_of_valueType ht (requireInt32_eq_ok hint)
    have hstands := valueOperand_eq_ok h hx ho
    obtain ⟨move, hmove, ins', hret, rfl⟩ : ∃ move, Instr.make (o.form .movrr32 .movri32)
        [.reg eax, o] = .ok move ∧ ∃ ins', Instr.make .ret [] = .ok ins' ∧ [move, ins'] = code := by
      cases hstands <;>
        simpa only [Operand.form, Except.bind_eq_ok, liftFault_eq_ok, Except.pure_eq_ok] using hsel
    exact .ret hword hstands (make_eq_ok hmove) (make_eq_ok hret)

theorem icmp?_eq_ok (h : Context.Ready src.func c) {x : Value} (hx : src.func.values[v]? = some x)
    {j : InstrId} {p : Predicate} {y z : ValueId}
    (hicmp : icmp? src c v = .ok (some (j, p, y, z))) :
    src.func.values[v]? = some (.result j) ∧ j ∈ src.func.inserted ∧
      ∃ t, src.func.opOf j = some (.icmp p t y z) := by
  obtain ⟨d, hd, -, hinstr, -⟩ := exists_definition h hx
  simp only [icmp?, Except.bind_eq_ok, hd, Except.ok.injEq, exists_eq_left', hinstr] at hicmp
  split at hicmp
  · simp [Except.pure_eq_ok] at hicmp
  · next k hk =>
    obtain ⟨rfl, hmem⟩ := Context.producerIn_eq_some.1 hk
    simp only [Except.bind_eq_ok, Func.instr_eq_ok] at hicmp
    obtain ⟨ins, hins, hicmp⟩ := hicmp
    split at hicmp
    · next p' t y' z' hop =>
      obtain ⟨rfl, rfl, rfl, rfl⟩ : k = j ∧ p' = p ∧ y' = y ∧ z' = z := by
        simpa [Except.pure_eq_ok] using hicmp
      exact ⟨hx, hmem, t, by simp [Func.opOf, hins, hop]⟩
    · simp [Except.pure_eq_ok] at hicmp

theorem comparison_eq_ok {p : Predicate} {x y : ValueId} {cmp : Comparison}
    (hcmp : comparison src c i p x y = .ok cmp) :
    src.isWord x = true ∧ Compares p x y cmp.x cmp.y cmp.jump := by
  unfold comparison at hcmp
  split at hcmp
  · next jump swapped hjump hswapped =>
    simp only [ite_eq_iff, Except.bind_eq_ok, liftFault_eq_ok, Except.pure_eq_ok] at hcmp
    obtain ⟨t, ht, _, hint, d, -, hcmp⟩ := hcmp
    refine ⟨isWord_of_valueType ht (requireInt32_eq_ok hint), ?_⟩
    rcases hcmp with ⟨-, d', -, ⟨-, rfl⟩ | ⟨-, rfl⟩⟩ | ⟨-, rfl⟩
    · exact .swapped hswapped
    · exact .same hjump
    · exact .same hjump
  · simp [Except.throw_ne_ok] at hcmp

theorem selectCondBr_eq_ok (h : Context.Ready src.func c) {b l r : BlockId} {w cond : ValueId}
    {x : Value} (hx : src.func.values[cond]? = some x)
    (hsel : selectCondBr src c i cond l r = .ok code) :
    Selected src b w (.condBr cond l r) code := by
  simp only [selectCondBr, Except.bind_eq_ok, liftFault_eq_ok] at hsel
  obtain ⟨cmp?, hicmp, hsel⟩ := hsel
  cases cmp? with
  | none => simp [Except.bind_eq_ok, Except.throw_ne_ok] at hsel
  | some cmp =>
    obtain ⟨j, p, y, z⟩ := cmp
    obtain ⟨hcond, hj, t, hop⟩ := icmp?_eq_ok h hx hicmp
    simp only [Except.bind_eq_ok] at hsel
    obtain ⟨cmp, hcmp, lhs, hlhs, o, ho, hsel⟩ := hsel
    obtain ⟨hword, hcompares⟩ := comparison_eq_ok hcmp
    have hexist : ∀ v ∈ [y, z], ∃ x, src.func.values[v]? = some x := fun v hv =>
      ⟨_, Array.getElem?_eq_getElem (Func.operandsExist_of_users h.users j hj _ hop v hv)⟩
    obtain ⟨⟨_, hx'⟩, ⟨_, hy'⟩⟩ : (∃ x, src.func.values[cmp.x]? = some x) ∧
        ∃ x, src.func.values[cmp.y]? = some x := by
      cases hcompares <;> exact ⟨hexist _ (by simp), hexist _ (by simp)⟩
    obtain ⟨rfl, hstandsx⟩ := regOperand_eq_ok h hx' hlhs
    have hstands := valueOperand_eq_ok h hy' ho
    obtain ⟨compare, hcompare, l', hl, taken, htaken, r', hr, other, hother, rfl⟩ :
        ∃ compare, Instr.make (o.form .cmprr32 .cmpri32) [.reg (src.func.regOf cmp.x), o] =
          .ok compare ∧ ∃ l', c.label l = .ok l' ∧ ∃ taken, Instr.make cmp.jump [.label l'] =
          .ok taken ∧ ∃ r', c.label r = .ok r' ∧ ∃ other, Instr.make .jmp [.label r'] =
          .ok other ∧ [compare, taken, other] = code := by
      cases hstands <;>
        simpa only [Operand.form, Except.bind_eq_ok, liftFault_eq_ok, Except.pure_eq_ok] using hsel
    obtain ⟨hlt, rfl⟩ := h.label_eq_ok.1 hl
    obtain ⟨hrt, rfl⟩ := h.label_eq_ok.1 hr
    exact .condBr hcond hop hword hcompares hstandsx hstands (make_eq_ok hcompare)
      (make_eq_ok htaken) (make_eq_ok hother) hlt hrt

theorem incomingFrom_eq_ok {incoming : List (ValueId × BlockId)} {p : BlockId}
    {inc : ValueId × BlockId} (h : incomingFrom src i incoming p = .ok inc) :
    inc ∈ incoming ∧ inc.2 = p ∧ incoming.find? (·.2 == p) = some inc := by
  unfold incomingFrom at h
  split at h
  · next inc' hfilter =>
    obtain rfl := Except.pure_eq_ok.1 h
    have hfind : incoming.find? (·.2 == p) = some inc' := by
      rw [← List.head?_filter, hfilter, List.head?_cons]
    exact ⟨List.mem_of_find?_eq_some hfind, by simpa using List.find?_some hfind, hfind⟩
  · simp [Except.bind_eq_ok, Except.throw_ne_ok] at h

theorem incomings_eq_ok (hins : src.func.instrs[i]? = some ins) {b : BlockId}
    (hb : ins.block = some b) {incoming incs : List (ValueId × BlockId)}
    (h : incomings src i incoming = .ok incs) :
    List.Forall₂ (fun p inc => incomingFrom src i incoming p = .ok inc) (src.func.predsOf b)
      incs := by
  simp only [incomings, Except.bind_eq_ok, liftFault_eq_ok, Func.instr_eq_ok, hins,
    Option.some.injEq, exists_eq_left', hb, Except.pure_eq_ok] at h
  obtain ⟨blk, hblk, h⟩ := h
  rw [Func.preds_eq_predsOf (Func.block_eq_ok.1 hblk)]
  split at h
  · simp [Except.bind_eq_ok, Except.throw_ne_ok] at h
  · exact Except.mapM_eq_ok.1 h

/-- The operands of a phi come in pairs, one for each predecessor. -/
theorem forall₂_comesIn (h : Context.Ready src.func c) {incoming : List (ValueId × BlockId)}
    (hexist : ∀ inc ∈ incoming, ∃ x, src.func.values[inc.1]? = some x) {preds : List BlockId}
    {incs : List (ValueId × BlockId)} {operands : List (List Operand)}
    (hincs : List.Forall₂ (fun p inc => incomingFrom src i incoming p = .ok inc) preds incs)
    (hops : List.Forall₂ (fun inc os => incomingOperands src c i inc = .ok os) incs operands) :
    List.Forall₂ (ComesIn src incoming) preds operands := by
  induction hincs generalizing operands with
  | nil =>
    cases hops
    exact .nil
  | @cons q inc preds incs hinc hincs ih =>
    obtain ⟨os, operands, hos, hrest, rfl⟩ := List.forall₂_cons_left_iff.1 hops
    refine .cons ?_ (ih hrest)
    simp only [incomingOperands, Except.bind_eq_ok, liftFault_eq_ok, Except.pure_eq_ok] at hos
    obtain ⟨o, ho, l, hl, rfl⟩ := hos
    obtain ⟨hmem, rfl, hfind⟩ := incomingFrom_eq_ok hinc
    obtain ⟨hlt, rfl⟩ := h.label_eq_ok.1 hl
    obtain ⟨x, hx⟩ := hexist inc hmem
    exact ⟨hlt, inc.1, o, hfind, valueOperand_eq_ok h hx ho, rfl⟩

/-- The operand with the label of a predecessor stands for the value that comes in from it. -/
theorem incomingOf_flatten {incoming : List (ValueId × BlockId)} {preds : List BlockId}
    {operands : List (List Operand)} (h : List.Forall₂ (ComesIn src incoming) preds operands)
    {p : BlockId} (hp : p ∈ preds) :
    ∃ w o, incoming.find? (·.2 == p) = some (w, p) ∧ Stands src w o ∧
      incomingOf (p + 1) operands.flatten = some o := by
  induction h with
  | nil => cases hp
  | @cons q os preds operands hq _ ih =>
    obtain ⟨-, w, o, hfind, hstands, rfl⟩ := hq
    by_cases hpq : p = q
    · subst hpq
      exact ⟨w, o, hfind, hstands, by simp [incomingOf]⟩
    · obtain ⟨w', o', hw, hstands', hof⟩ := ih ((List.mem_cons.1 hp).resolve_left hpq)
      exact ⟨w', o', hw, hstands', by simpa [incomingOf, Ne.symm hpq] using hof⟩

theorem selectPhi_eq_ok (hcon : src.func.Coherent) (h : Context.Ready src.func c) {b : BlockId}
    (hins : src.func.instrs[i]? = some ins) (hb : ins.block = some b) {t : TypeId}
    {incoming : List (ValueId × BlockId)} (ht : ins.type = t)
    (hexist : ∀ inc ∈ incoming, ∃ x, src.func.values[inc.1]? = some x)
    (hsel : selectPhi src i t incoming c = .ok code c') :
    c = c' ∧ Selected src b ins.result (.phi t incoming) code := by
  subst ht
  unfold selectPhi at hsel
  split at hsel
  · simp [EStateM.bind_eq_ok, EStateM.throw_ne_ok] at hsel
  · simp only [EStateM.bind_eq_ok, EStateM.get_eq_ok, liftStop_eq_ok,
      liftFaultStop_eq_ok, EStateM.pure_eq_ok] at hsel
    obtain ⟨r, _, hout, _, _, ⟨rfl, rfl⟩, operands, _, ⟨hops, rfl⟩, ins', _, ⟨hmake, rfl⟩, rfl,
      rfl⟩ := hsel
    obtain ⟨rfl, rfl, hv, -⟩ := outputReg_eq_ok hcon h hins hout
    simp only [phiOperands, Except.bind_eq_ok, Except.pure_eq_ok, Except.mapM_eq_ok] at hops
    obtain ⟨incs, hincs, ops, hops, rfl⟩ := hops
    exact ⟨rfl, .phi (make_eq_ok hmake) hv
      (forall₂_comesIn h hexist (incomings_eq_ok hins hb hincs) hops)⟩

/-- Selecting leaves a ready context as it is, and gives what is described for the operation. -/
theorem select_eq_ok (hcon : src.func.Coherent) (h : Context.Ready src.func c) {b : BlockId}
    (hi : i ∈ src.func.instrsOf b) (hins : src.func.instrs[i]? = some ins)
    (hsel : select src i c = .ok code c') :
    c = c' ∧ ∃ op, ins.op = some op ∧ Selected src b ins.result op code := by
  have hb : ins.block = some b := by
    simpa [Func.blockOf, hins] using hcon.mem_instrsOf.1 hi
  have hexist {op : Operation} (hop : ins.op = some op) {v : ValueId} (hv : v ∈ op.args) :
      ∃ x, src.func.values[v]? = some x :=
    ⟨_, Array.getElem?_eq_getElem (Func.operandsExist_of_users h.users i
      (Func.mem_inserted.2 ⟨b, hi⟩) op (by simp [Func.opOf, hins, hop]) v hv)⟩
  have htype {op : Operation} (hop : ins.op = some op) : ins.type = op.type := by
    simp [Codegen.Instr.type, hop]
  simp only [select, EStateM.bind_eq_ok, EStateM.get_eq_ok, liftStop_eq_ok, liftFault_eq_ok] at hsel
  obtain ⟨_, _, ⟨rfl, rfl⟩, ins', _, ⟨hins', rfl⟩, hsel⟩ := hsel
  obtain rfl := Option.some.inj (hins.symm.trans (Func.instr_eq_ok.1 hins'))
  cases hop : ins.op with
  | none =>
    rw [hop] at hsel
    exact absurd hsel EStateM.throw_ne_ok
  | some op =>
    simp only [hop] at hsel
    suffices hsuff : c = c' ∧ Selected src b ins.result op code from ⟨hsuff.1, op, rfl, hsuff.2⟩
    cases op with
    | alloca t e n a =>
      simp only [EStateM.bind_eq_ok, liftStop_eq_ok, EStateM.pure_eq_ok] at hsel
      obtain ⟨s, _, ⟨-, rfl⟩, rfl, rfl⟩ := hsel
      exact ⟨rfl, .alloca⟩
    | phi t incoming =>
      exact selectPhi_eq_ok hcon h hins hb (htype hop)
        (fun inc hinc => hexist hop (List.mem_map_of_mem hinc)) hsel
    | load t addr => exact selectLoad_eq_ok hcon h hins (htype hop) hsel
    | store w addr =>
      obtain ⟨hstore, rfl⟩ := liftStop_eq_ok.1 hsel
      obtain ⟨x, hx⟩ := hexist hop (v := w) (by simp [Operation.args])
      exact ⟨rfl, selectStore_eq_ok h hx hstore⟩
    | binary op t x y =>
      obtain ⟨_, hx⟩ := hexist hop (v := x) (by simp [Operation.args])
      obtain ⟨_, hy⟩ := hexist hop (v := y) (by simp [Operation.args])
      exact selectBinary_eq_ok hcon h hins (htype hop) hx hy hsel
    | icmp p t x y =>
      obtain ⟨hicmp, rfl⟩ := liftStop_eq_ok.1 hsel
      exact ⟨rfl, selectIcmp_eq_ok h hicmp⟩
    | br target =>
      obtain ⟨hbr, rfl⟩ := liftStop_eq_ok.1 hsel
      exact ⟨rfl, selectBr_eq_ok h hbr⟩
    | condBr cond l r =>
      obtain ⟨hbr, rfl⟩ := liftStop_eq_ok.1 hsel
      obtain ⟨x, hx⟩ := hexist hop (v := cond) (by simp [Operation.args])
      exact ⟨rfl, selectCondBr_eq_ok h hx hbr⟩
    | ret w =>
      obtain ⟨hret, rfl⟩ := liftStop_eq_ok.1 hsel
      refine ⟨rfl, selectRet_eq_ok h (fun v hv => hexist hop ?_) hret⟩
      simpa [Operation.args] using hv
    | sext | zext | getElementPtr | call => exact absurd hsel EStateM.throw_ne_ok

end Rules

/-! ### What is selected for kinds of operations -/

section Kinds

variable {b : BlockId} {op : Operation} {is : List Instr}

theorem Selected.isPhi_eq_false (h : Selected src b v op is) (hop : op.isPhi = false) :
    ∀ m ∈ is, m.isPhi = false := by
  cases h with
  | alloca | icmp => simp
  | phi => cases hop
  | load _ _ _ hm => simp [Instr.isPhi, hm.1]
  | @store w addr j o m _ _ _ _ hm => cases o <;> simp [Instr.isPhi, hm.1, Operand.form]
  | @binary op t x y rr ri o copy m hrr _ _ _ hcopy hm =>
    cases op <;> cases hrr <;> cases o <;> simp [Instr.isPhi, hcopy.1, hm.1, Operand.form]
  | br hm => simp [Instr.isPhi, hm.1]
  | @condBr _ _ _ _ _ _ _ _ p _ jump o _ _ _ _ _ _ hcmp _ _ hcompare htaken hother =>
    have hjump : jump ≠ .phi := by
      rintro rfl
      cases hcmp with
      | same h => cases p <;> cases h
      | swapped h => cases p <;> cases h
    cases o <;> simp [Instr.isPhi, hcompare.1, htaken.1, hother.1, Operand.form, hjump]
  | @ret w o move m _ _ hmove hm => cases o <;> simp [Instr.isPhi, hmove.1, hm.1, Operand.form]

theorem Selected.isPhi_eq_true (h : Selected src b v op is) (hop : op.isPhi = true) :
    ∀ m ∈ is, m.isPhi = true := by
  cases h with
  | phi hm => simp [Instr.isPhi, hm.1]
  | _ => cases hop

theorem Selected.ne_nil (h : Selected src b v op is) (hop : op.isTerminator = true) : is ≠ [] := by
  cases h with
  | br | condBr | ret => simp
  | _ => cases hop

end Kinds

end Codegen.X86
