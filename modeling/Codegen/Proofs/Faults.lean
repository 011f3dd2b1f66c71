import Codegen.Proofs.Known
import Codegen.Proofs.Layout
import Codegen.Proofs.OperandTable

/-!
# Faults of lowering

Lowering meets its obstacles with errors. It stops with a fault only if something that it takes for
granted does not hold, and for a function that was built step by step, has known types and passes
the check this leaves three cases: a phi in a block to which no block branches, an operand in code
that control never reaches which is the result of an instruction in no block, and more values than
there are registers.

## Main definitions

* `Func.ReadIdly`: values that are read where control never comes.
* `X86.Breaks`: the faults that are left.
* `X86.Proper`: what lowering takes for granted about a function.

## Main results

* `X86.select_eq_fault`: selecting the instructions for one instruction stops with no other fault.
* `X86.compile_eq_fault`: nor does compiling a function.
-/

namespace Codegen

theorem Source.unsupported_ne_fault {src : Source} {i : InstrId} {o : Obstacle} {e : Fault} :
    src.unsupported i o ≠ .fault e :=
  Stop.ofCause_ne_fault

/-! ### Values that are never read -/

namespace Func

variable {f f' : Func} {b : BlockId} {i j : InstrId} {v : ValueId}

theorem values_forM_link {targets : List BlockId} (h : targets.forM (link b) f = .ok () f') :
    f'.values = f.values := by
  induction targets generalizing f with
  | nil =>
    obtain ⟨-, rfl⟩ := EStateM.pure_eq_ok.1 h
    rfl
  | cons s rest ih =>
    obtain ⟨_, g, hg, h⟩ := EStateM.bind_eq_ok.1 h
    obtain ⟨-, rfl⟩ := link_eq_ok hg
    rw [ih h, values_connect]

/-- Only the first value of a function is absent. -/
theorem Built.eq_absent (h : f.Built) (hv : f.values[v]? = some .absent) :
    v = ValueId.absent := by
  induction h generalizing v with
  | new h =>
    obtain ⟨types, -, -, hvalues⟩ := new_values h
    cases v with
    | zero => rfl
    | succ n => simp [hvalues] at hv
  | addBlock _ _ ih => exact ih hv
  | addConst _ _ _ ih | addInstr _ ih =>
    simp only [addValue, Func.addInstr, Array.getElem?_push] at hv
    split at hv
    · cases hv
    · exact ih hv
  | setOperation _ _ h ih =>
    obtain ⟨-, rfl⟩ := setOperation_eq_ok h
    exact ih (by simpa using hv)
  | insert _ h ih =>
    obtain ⟨-, -, op, -, h⟩ := insert_eq_ok h
    rw [values_forM_link h] at hv
    exact ih (by simpa [attach] using hv)

/-- A value that is read where control never comes: by an instruction of a block that cannot be
reached, or by a phi as what comes in from such a block. -/
inductive ReadIdly (f : Func) (v : ValueId) : Prop
  | operand {b : BlockId} {i : InstrId} {op : Operation} (hi : i ∈ f.instrsOf b)
      (hop : f.opOf i = some op) (hphi : op.isPhi = false) (hv : v ∈ op.args)
      (hb : ¬f.Reachable b)
  | incoming {b p : BlockId} {i : InstrId} {t : TypeId} {incoming : List (ValueId × BlockId)}
      (hi : i ∈ f.instrsOf b) (hop : f.opOf i = some (.phi t incoming)) (hv : (v, p) ∈ incoming)
      (hp : ¬f.Reachable p)

/-- The targets of a branch are blocks of the function. -/
theorem Consistent.target_lt (hc : f.Consistent) {op : Operation} {target : BlockId}
    (hi : i ∈ f.instrsOf b) (hop : f.opOf i = some op) (ht : target ∈ op.successors) :
    target < f.blocks.size :=
  hc.edges.succ_lt (hc.mem_succsOf.2 ⟨i, hi, op, hop, ht⟩)

theorem Consistent.pred_lt (hc : f.Consistent) {p : BlockId} (h : p ∈ f.predsOf b) :
    p < f.blocks.size := by
  obtain ⟨j, hj, -⟩ := hc.mem_succsOf.1 (hc.edges.mem_predsOf.1 h)
  exact lt_size_of_mem_instrsOf hj

/-- A function that the check accepts is well formed; of a declaration there is nothing to say. -/
theorem Consistent.wellFormed {types : TypeTable} (hc : f.Consistent) (ho : f.OperandsExist)
    (h : f.check types = .ok ()) : f.WellFormed := by
  cases hdecl : f.isDeclaration with
  | false => exact wellFormed_of_check hc ho h hdecl
  | true =>
    have hsize : f.blocks.size = 0 := by simpa [isDeclaration] using hdecl
    have hnil (b : BlockId) : f.instrsOf b = [] := by
      simp [instrsOf, hsize]
    exact ⟨by simp [hsize], by simp [hnil], by simp [hnil]⟩

/-- Well-formed functions read the results of instructions in no block only where control never
comes. -/
theorem WellFormed.readIdly (hwf : f.WellFormed) {op : Operation} (hi : i ∈ f.instrsOf b)
    (hop : f.opOf i = some op) (hv : v ∈ op.args) (hval : f.values[v]? = some (.result j))
    (hj : f.blockOf j = none) : f.ReadIdly v := by
  cases hphi : op.isPhi with
  | false =>
    refine .operand hi hop hphi hv fun hr => ?_
    obtain ⟨before, after, hsplit⟩ := List.append_of_mem hi
    obtain ⟨d, hd, -⟩ := hwf.uses b hr before i after op hsplit hop hphi v hv j hval
    cases hj.symm.trans hd
  | true =>
    cases op <;> cases hphi
    obtain ⟨⟨_, p⟩, hinc, rfl⟩ := List.mem_map.1 hv
    refine .incoming hi hop hinc fun hr => ?_
    obtain ⟨d, hd, -⟩ := (hwf.phis b i hi _ _ hop).available hinc hr hval
    cases hj.symm.trans hd

end Func

/-! ### The faults that are left -/

namespace X86

/-- Why lowering a function that passes the check can stop with a fault. -/
inductive Breaks (src : Source) : Fault → Prop
  /-- A phi in a block to which no block branches has no incoming values, and there is no machine
  instruction for it. -/
  | phi {b : BlockId} {i : InstrId} {t : TypeId} (hi : i ∈ src.func.instrsOf b)
      (hop : src.func.opOf i = some (.phi t [])) (hpreds : src.func.predsOf b = []) :
      Breaks src (.operandCount Opcode.phi.name Opcode.phi.specs.length 1)
  /-- The result of an instruction in no block is taken for a constant, and it is no integer. -/
  | operand {j : InstrId} {ins : Codegen.Instr} {e : Fault} (hins : src.func.instrs[j]? = some ins)
      (hj : ins.block = none) (hread : src.func.ReadIdly ins.result)
      (he : src.types.intBits ins.type = .error e) : Breaks src e
  /-- There are more values that live in registers than numbers of registers. -/
  | registers (h : Reg.reservedId < (src.func.holders src.func.params src.func.inserted).length) :
      Breaks src .tooManyRegisters

/-- What lowering takes for granted about a function. -/
structure Proper (src : Source) : Prop where
  consistent : src.func.Consistent
  known : src.TypesKnown
  exist : src.func.OperandsExist
  /-- No operand is the absent value. -/
  present : ∀ i ∈ src.func.inserted, ∀ op ∈ src.func.opOf i, ∀ v ∈ op.args,
    src.func.values[v]? ≠ some .absent
  wellFormed : src.func.WellFormed

section Operands

variable {src : Source} {c c' : Context} {i j : InstrId} {b : BlockId} {v : ValueId} {t : TypeId}
  {e : Fault} {op : Operation}

theorem Proper.lt_values (hp : Proper src) (hi : i ∈ src.func.instrsOf b)
    (hop : src.func.opOf i = some op) (hv : v ∈ op.args) : v < src.func.values.size :=
  hp.exist i (Func.mem_inserted.2 ⟨b, hi⟩) op hop v hv

theorem Proper.exists_text (hp : Proper src) {ins : Codegen.Instr}
    (hins : src.func.instrs[i]? = some ins) : ∃ s, src.types.text ins.type = .ok s :=
  hp.known.grounded.exists_text (hp.known.instrs ins (Array.mem_of_getElem? hins))

theorem requireInt32_ne_fault {s : String} (ht : src.types.text t = .ok s) :
    requireInt32 src i t ≠ .error (.fault e) := by
  simp [requireInt32, ite_eq_iff, Except.bind_eq_error, liftFault_eq_fault, ht,
    Except.throw_eq_error, Source.unsupported_ne_fault, Except.pure_ne_error]

theorem slotOperand_ne_fault (hv : v < src.func.values.size) :
    slotOperand src c i v ≠ .error (.fault e) := by
  obtain ⟨s, hs⟩ := Func.exists_valueText src.types hv
  unfold slotOperand
  split
  · exact Except.pure_ne_error
  · simp [Source.valueText, Except.bind_eq_error, liftFault_eq_fault, hs, Except.throw_eq_error,
      Source.unsupported_ne_fault]

theorem regOperand_ne_fault (h : Context.Ready src.func c) (hv : v < src.func.values.size) :
    regOperand src c i v ≠ .error (.fault e) := by
  obtain ⟨s, hs⟩ := Func.exists_valueText src.types hv
  obtain ⟨d, hd, -⟩ := exists_definition h (Array.getElem?_eq_getElem hv)
  simp [regOperand, Context.valueReg, Context.valueText, Source.valueText, h.func, ite_eq_iff,
    Except.bind_eq_error, liftFault_eq_fault, liftFault_eq_ok, hs, hd, Except.throw_eq_error,
    Source.unsupported_ne_fault, Stop.ofCause_ne_fault, Except.pure_ne_error]

/-- A value that is taken for a constant and has no width is the result of an instruction in no
block. -/
theorem breaks_of_intBits (hp : Proper src) (hi : i ∈ src.func.instrsOf b)
    (hop : src.func.opOf i = some op) (hv : v ∈ op.args) {x : Value}
    (hx : src.func.values[v]? = some x) (hu : Unproduced src.func v x)
    (ht : src.func.valueType v = .ok t) (hbits : src.types.intBits t = .error e) :
    Breaks src e := by
  have hn := hp.consistent.toNaming
  cases x with
  | absent => exact absurd hx (hp.present i (Func.mem_inserted.2 ⟨b, hi⟩) op hop v hv)
  | const payload t' =>
    obtain rfl : t' = t := by simpa [Func.valueType_const hx] using ht
    obtain ⟨-, bits, hok⟩ := TypeTable.exists_intBits (hp.known.values _ (Array.mem_of_getElem? hx))
    rw [hok] at hbits
    cases hbits
  | arg n t' =>
    have hparam := List.mem_of_getElem? (hn.arg_param hx)
    exact absurd hu.2 (by simp [Value.positionIn, hparam])
  | result k =>
    obtain ⟨ins, hins, rfl⟩ := hn.value_result hx
    obtain rfl : ins.type = t := by simpa [Func.valueType_result hn hins] using ht
    have hnone : src.func.blockOf k = none := by
      refine Option.eq_none_iff_forall_ne_some.2 fun d hd => unproduced_result.1 hu ?_
      exact Func.mem_inserted.2 ⟨d, hp.consistent.mem_instrsOf.2 hd⟩
    refine .operand hins ?_ (hp.wellFormed.readIdly hi hop hv hx hnone) hbits
    simpa [Func.blockOf, hins] using hnone

theorem valueOperand_eq_fault (hp : Proper src) (h : Context.Ready src.func c)
    (hi : i ∈ src.func.instrsOf b) (hop : src.func.opOf i = some op) (hv : v ∈ op.args)
    (hf : valueOperand src c j v = .error (.fault e)) : Breaks src e := by
  have hlt := hp.lt_values hi hop hv
  have hx := Array.getElem?_eq_getElem hlt
  have hn := hp.consistent.toNaming
  obtain ⟨s, hs⟩ := Func.exists_valueText src.types hlt
  obtain ⟨t, -, ht, -⟩ := Func.exists_valueType hn hp.known hlt
  obtain ⟨d, hd, -, -, hconst, -⟩ := exists_definition h hx
  simp only [valueOperand, immOperand, ite_eq_iff, Except.bind_eq_error, liftFault_eq_fault,
    liftFault_eq_ok, hd, ht, hconst, reduceCtorEq, Except.ok.injEq, exists_eq_left',
    Except.pure_ne_error, regOperand_ne_fault h hlt, and_false, exists_false, or_false,
    false_or] at hf
  obtain ⟨hu, hbits | ⟨bits, -, hf⟩⟩ := hf
  · exact breaks_of_intBits hp hi hop hv hx hu ht hbits
  · split at hf
    · exact absurd hf Except.pure_ne_error
    · simp [Source.valueText, Except.bind_eq_error, liftFault_eq_fault, hs, Except.throw_eq_error,
        Source.unsupported_ne_fault] at hf

theorem resultReg_ne_fault (hcon : src.func.Coherent) (h : Context.Ready src.func c)
    {ins : Codegen.Instr} (hins : src.func.instrs[i]? = some ins) :
    c.resultReg src.func i ≠ .error (.fault e) := by
  obtain ⟨d, hd, -⟩ := exists_definition h (hcon.result_value hins)
  simp [Context.resultReg, Context.funcName, h.func, Func.instr_eq_ok.2 hins, ite_eq_iff,
    Except.bind_eq_error, liftFault_eq_fault, liftFault_eq_ok, hd, Except.throw_eq_error,
    Stop.ofCause_ne_fault, Except.map_eq_error, Except.pure_ne_error]

/-- The register of a result has the type of the instruction, so that no type is set. -/
theorem outputReg_ne_fault (hcon : src.func.Coherent) (h : Context.Ready src.func c)
    {ins : Codegen.Instr} (hins : src.func.instrs[i]? = some ins) :
    Context.outputReg src.func i ins.type c ≠ .error (.fault e) c' := by
  intro hf
  simp only [Context.outputReg, EStateM.bind_eq_error, EStateM.get_ne_error, EStateM.get_eq_ok,
    false_or] at hf
  obtain ⟨_, _, ⟨rfl, rfl⟩, hf⟩ := hf
  cases hres : c.resultReg src.func i with
  | error stop =>
    rw [hres] at hf
    obtain ⟨rfl, -⟩ := EStateM.throw_eq_error.1 hf
    exact resultReg_ne_fault hcon h hins hres
  | ok r =>
    obtain ⟨rfl, hv, -⟩ := resultReg_eq_ok hcon h hins hres
    simp only [hres, h.type_result hcon.toNaming hins hv, if_true] at hf
    exact EStateM.pure_ne_error hf

end Operands

/-! ### The rules -/

section Rules

variable {src : Source} {c c' : Context} {i : InstrId} {b : BlockId} {ins : Codegen.Instr}
  {e : Fault}

theorem slotFor_ne_fault (h : Context.Ready src.func c) (hins : src.func.instrs[i]? = some ins) :
    c.slotFor src.func i ≠ .error (.fault e) := by
  intro hf
  simp only [Context.slotFor, Except.bind_eq_error, liftFault_eq_fault, liftFault_eq_ok,
    Func.instr_eq_ok.2 hins, reduceCtorEq, Except.ok.injEq, exists_eq_left', false_or] at hf
  split at hf
  · split at hf
    · exact Except.pure_ne_error hf
    · simp [Context.funcName, h.func, Except.bind_eq_error, liftFault_eq_fault,
        Except.throw_eq_error, Stop.ofCause_ne_fault] at hf
  · exact Stop.ofCause_ne_fault (Except.throw_eq_error.1 hf)

theorem selectLoad_ne_fault (hp : Proper src) (h : Context.Ready src.func c) {t : TypeId}
    {addr : ValueId} (hi : i ∈ src.func.instrsOf b) (hins : src.func.instrs[i]? = some ins)
    (ht : ins.type = t) (hop : src.func.opOf i = some (.load t addr)) :
    selectLoad src i t addr c ≠ .error (.fault e) c' := by
  subst ht
  obtain ⟨s, hs⟩ := hp.exists_text hins
  have haddr := hp.lt_values hi hop (v := addr) (by simp [Operation.args])
  intro hf
  simp only [selectLoad, EStateM.bind_eq_error, EStateM.get_ne_error, EStateM.get_eq_ok,
    liftStop_eq_error, liftStop_eq_ok, requireInt32_ne_fault hs, slotOperand_ne_fault haddr,
    false_and, false_or] at hf
  obtain ⟨_, _, ⟨rfl, rfl⟩, _, _, ⟨-, rfl⟩, s, _, ⟨-, rfl⟩,
    hf | ⟨r, c₁, -, hf | ⟨_, _, -, hf⟩⟩⟩ := hf
  · exact outputReg_ne_fault hp.consistent h hins hf
  · cases hf
  · cases hf

theorem selectStore_eq_fault (hp : Proper src) (h : Context.Ready src.func c) {w addr : ValueId}
    (hi : i ∈ src.func.instrsOf b) (hop : src.func.opOf i = some (.store w addr))
    (hf : selectStore src c i w addr = .error (.fault e)) : Breaks src e := by
  have hw := hp.lt_values hi hop (v := w) (by simp [Operation.args])
  have haddr := hp.lt_values hi hop (v := addr) (by simp [Operation.args])
  obtain ⟨t, s, ht, hs⟩ := Func.exists_valueType hp.consistent.toNaming hp.known hw
  simp only [selectStore, Except.bind_eq_error, liftFault_eq_fault, liftFault_eq_ok, ht,
    reduceCtorEq, Except.ok.injEq, exists_eq_left', requireInt32_ne_fault hs,
    slotOperand_ne_fault haddr, false_or] at hf
  obtain ⟨_, -, s, -, hf | ⟨o, ho, hf⟩⟩ := hf
  · exact valueOperand_eq_fault hp h hi hop (by simp [Operation.args]) hf
  · cases valueOperand_eq_ok h (Array.getElem?_eq_getElem hw) ho <;> cases hf

theorem selectBinary_eq_fault (hp : Proper src) (h : Context.Ready src.func c) {o : BinaryOp}
    {t : TypeId} {x y : ValueId} (hi : i ∈ src.func.instrsOf b)
    (hins : src.func.instrs[i]? = some ins) (ht : ins.type = t)
    (hop : src.func.opOf i = some (.binary o t x y))
    (hf : selectBinary src i o t x y c = .error (.fault e) c') : Breaks src e := by
  subst ht
  obtain ⟨s, hs⟩ := hp.exists_text hins
  have hx := hp.lt_values hi hop (v := x) (by simp [Operation.args])
  have hy := hp.lt_values hi hop (v := y) (by simp [Operation.args])
  simp only [selectBinary, EStateM.bind_eq_error, EStateM.get_ne_error, EStateM.get_eq_ok,
    false_or] at hf
  obtain ⟨_, _, ⟨rfl, rfl⟩, hf⟩ := hf
  cases hops : binaryOpcodes o with
  | none =>
    rw [hops] at hf
    exact absurd (EStateM.throw_eq_error.1 hf).1 Source.unsupported_ne_fault
  | some ops =>
    obtain ⟨rr, ri⟩ := ops
    simp only [hops, EStateM.bind_eq_error, liftStop_eq_error, liftStop_eq_ok,
      requireInt32_ne_fault hs, regOperand_ne_fault h hx, false_and, false_or] at hf
    obtain ⟨_, _, ⟨-, rfl⟩, lhs, _, ⟨-, rfl⟩, ⟨hf, -⟩ | ⟨rhs, _, ⟨hrhs, rfl⟩, hf⟩⟩ := hf
    · exact valueOperand_eq_fault hp h hi hop (by simp [Operation.args]) hf
    have hstands := valueOperand_eq_ok h (Array.getElem?_eq_getElem hy) hrhs
    rcases hf with hf | ⟨r, c₁, -, hf | ⟨copy, c₂, -, hf⟩⟩
    · exact absurd hf (outputReg_ne_fault hp.consistent h hins)
    · cases hf
    · cases o <;> cases hops <;> cases hstands <;> cases hf

theorem selectIcmp_ne_fault (hp : Proper src) (h : Context.Ready src.func c)
    (hins : src.func.instrs[i]? = some ins) :
    selectIcmp src c i ins.result ≠ .error (.fault e) := by
  intro hf
  have hlt : ins.result < c.users.size := by
    rw [Func.size_users h.users]
    exact (Array.getElem?_eq_some_iff.1 (hp.consistent.result_value hins)).1
  have hus := Array.getElem?_eq_getElem hlt
  simp only [selectIcmp, Context.usersOf, hus, Except.bind_eq_error, liftFault_eq_fault,
    liftFault_eq_ok, reduceCtorEq, Except.ok.injEq, exists_eq_left', Except.pure_ne_error,
    and_false, exists_false, or_false, false_or] at hf
  obtain ⟨u, hu, hf⟩ := Except.exists_of_forM_eq_error hf
  obtain ⟨b, hb⟩ := Func.mem_inserted.1 (Func.reads_of_users h.users hus hu).1
  have huser := Array.getElem?_eq_getElem (Func.lt_instrs_of_mem hp.consistent hb)
  simp [Func.instr_eq_ok.2 huser, Except.bind_eq_error, liftFault_eq_fault, liftFault_eq_ok,
    ite_eq_iff, Except.throw_eq_error, Source.unsupported_ne_fault, Except.pure_ne_error] at hf

theorem selectBr_ne_fault (hp : Proper src) (h : Context.Ready src.func c) {target : BlockId}
    (hi : i ∈ src.func.instrsOf b) (hop : src.func.opOf i = some (.br target)) :
    selectBr c target ≠ .error (.fault e) := by
  have ht : target < src.func.blocks.size :=
    hp.consistent.target_lt hi hop (by simp [Operation.successors])
  rw [selectBr, h.label_eq_ok.2 ⟨ht, rfl⟩]
  rintro ⟨⟩

theorem selectRet_eq_fault (hp : Proper src) (h : Context.Ready src.func c) {w : Option ValueId}
    (hi : i ∈ src.func.instrsOf b) (hop : src.func.opOf i = some (.ret w))
    (hf : selectRet src c i w = .error (.fault e)) : Breaks src e := by
  cases w with
  | none => cases hf
  | some w =>
    have hw := hp.lt_values hi hop (v := w) (by simp [Operation.args])
    obtain ⟨t, s, ht, hs⟩ := Func.exists_valueType hp.consistent.toNaming hp.known hw
    simp only [selectRet, Except.bind_eq_error, liftFault_eq_fault, liftFault_eq_ok, ht,
      reduceCtorEq, Except.ok.injEq, exists_eq_left', requireInt32_ne_fault hs, false_or] at hf
    obtain ⟨_, -, hf | ⟨o, ho, hf⟩⟩ := hf
    · exact valueOperand_eq_fault hp h hi hop (by simp [Operation.args]) hf
    · cases valueOperand_eq_ok h (Array.getElem?_eq_getElem hw) ho <;> cases hf

theorem icmp?_ne_error (hp : Proper src) (h : Context.Ready src.func c) {v : ValueId}
    (hv : v < src.func.values.size) : icmp? src c v ≠ .error e := by
  intro hf
  obtain ⟨d, hd, -, hinstr, -⟩ := exists_definition h (Array.getElem?_eq_getElem hv)
  simp only [icmp?, hd, Except.bind_eq_error, reduceCtorEq, Except.ok.injEq, exists_eq_left',
    hinstr, false_or] at hf
  split at hf
  · exact Except.pure_ne_error hf
  · next k hk =>
    obtain ⟨-, hmem⟩ := Context.producerIn_eq_some.1 hk
    obtain ⟨b, hb⟩ := Func.mem_inserted.1 hmem
    have hins := Array.getElem?_eq_getElem (Func.lt_instrs_of_mem hp.consistent hb)
    simp only [Func.instr_eq_ok.2 hins, Except.bind_eq_error, reduceCtorEq, Except.ok.injEq,
      exists_eq_left', false_or] at hf
    split at hf <;> exact Except.pure_ne_error hf

theorem comparison_ne_fault (hp : Proper src) (h : Context.Ready src.func c) {p : Predicate}
    {x y : ValueId} (hx : x < src.func.values.size) (hy : y < src.func.values.size) :
    comparison src c i p x y ≠ .error (.fault e) := by
  obtain ⟨t, s, ht, hs⟩ := Func.exists_valueType hp.consistent.toNaming hp.known hx
  obtain ⟨dx, hdx, -⟩ := exists_definition h (Array.getElem?_eq_getElem hx)
  obtain ⟨dy, hdy, -⟩ := exists_definition h (Array.getElem?_eq_getElem hy)
  unfold comparison
  split
  · simp [Except.bind_eq_error, liftFault_eq_fault, liftFault_eq_ok, ht, hdx, hdy,
      requireInt32_ne_fault hs, ite_eq_iff, Except.pure_ne_error]
  · simp [Except.throw_eq_error, Source.unsupported_ne_fault]

/-- The jump of a comparison takes a label. -/
theorem Compares.exists_make {p : Predicate} {x y x' y' : ValueId} {jump : Opcode}
    (h : Compares p x y x' y' jump) (l : Label) : ∃ m, Instr.make jump [.label l] = .ok m := by
  cases h with
  | same h => cases p <;> cases h <;> exact ⟨_, rfl⟩
  | swapped h => cases p <;> cases h <;> exact ⟨_, rfl⟩

theorem selectCondBr_eq_fault (hp : Proper src) (h : Context.Ready src.func c) {cond : ValueId}
    {l r : BlockId} (hi : i ∈ src.func.instrsOf b)
    (hop : src.func.opOf i = some (.condBr cond l r))
    (hf : selectCondBr src c i cond l r = .error (.fault e)) : Breaks src e := by
  have hcond := hp.lt_values hi hop (v := cond) (by simp [Operation.args])
  have hl : l < src.func.blocks.size :=
    hp.consistent.target_lt hi hop (by simp [Operation.successors])
  have hr : r < src.func.blocks.size :=
    hp.consistent.target_lt hi hop (by simp [Operation.successors])
  simp only [selectCondBr, Except.bind_eq_error, liftFault_eq_fault, liftFault_eq_ok,
    icmp?_ne_error hp h hcond, false_or] at hf
  obtain ⟨cmp?, hicmp, hf⟩ := hf
  cases cmp? with
  | none =>
    obtain ⟨s, hs⟩ := Func.exists_valueText src.types hcond
    simp [Source.valueText, Except.bind_eq_error, liftFault_eq_fault, hs, Except.throw_eq_error,
      Source.unsupported_ne_fault] at hf
  | some cmp =>
    obtain ⟨j, p, x, y⟩ := cmp
    obtain ⟨-, hj, t, hjop⟩ := icmp?_eq_ok h (Array.getElem?_eq_getElem hcond) hicmp
    obtain ⟨d, hd⟩ := Func.mem_inserted.1 hj
    have hlt : ∀ v ∈ [x, y], v < src.func.values.size := fun v hv => hp.lt_values hd hjop hv
    simp only [Except.bind_eq_error, comparison_ne_fault hp h (hlt x (by simp)) (hlt y (by simp)),
      false_or] at hf
    obtain ⟨cmp, hcmp, hf⟩ := hf
    obtain ⟨-, hcompares⟩ := comparison_eq_ok hcmp
    obtain ⟨hx', hy'⟩ : cmp.x ∈ [x, y] ∧ cmp.y ∈ [x, y] := by
      cases hcompares <;> simp
    simp only [regOperand_ne_fault h (hlt _ hx'), false_or] at hf
    obtain ⟨lhs, -, hf | ⟨o, ho, hf⟩⟩ := hf
    · exact valueOperand_eq_fault hp h hd hjop hy' hf
    obtain ⟨m, hm⟩ := hcompares.exists_make (l + 1)
    cases valueOperand_eq_ok h (Array.getElem?_eq_getElem (hlt _ hy')) ho <;>
      simp only [Except.bind_eq_error, liftFault_eq_fault, liftFault_eq_ok, Except.pure_ne_error,
        h.label_eq_ok.2 ⟨hl, rfl⟩, h.label_eq_ok.2 ⟨hr, rfl⟩, hm, reduceCtorEq, Except.ok.injEq,
        exists_eq_left', false_or, and_false, exists_false, or_false] at hf <;>
      rcases hf with hf | ⟨_, -, hf⟩ <;> cases hf

theorem incomings_ne_fault (hp : Proper src) (hi : i ∈ src.func.instrsOf b)
    {incoming : List (ValueId × BlockId)} : incomings src i incoming ≠ .error (.fault e) := by
  intro hf
  have hblk := Array.getElem?_eq_getElem (Func.lt_size_of_mem_instrsOf hi)
  obtain ⟨ins, hins, hb⟩ := Option.bind_eq_some_iff.1 (hp.consistent.mem_instrsOf.1 hi)
  simp only [incomings, Except.bind_eq_error, liftFault_eq_fault, liftFault_eq_ok,
    Func.instr_eq_ok.2 hins, Func.block_eq_ok.2 hblk, hb, reduceCtorEq, Except.ok.injEq,
    exists_eq_left', Except.pure_ne_error, Except.pure_eq_ok, false_or, ite_eq_iff,
    Except.throw_eq_error, Source.unsupported_ne_fault, Except.throw_ne_ok, false_and, exists_false,
    and_false] at hf
  obtain ⟨p, hpmem, hf⟩ := Except.exists_of_mapM_eq_error hf.2
  rw [← Func.preds_eq_predsOf hblk] at hpmem
  obtain ⟨s, hs⟩ := Func.exists_blockName (hp.consistent.pred_lt hpmem)
  unfold incomingFrom at hf
  split at hf
  · exact Except.pure_ne_error hf
  · simp [Except.bind_eq_error, liftFault_eq_fault, hs, Except.throw_eq_error,
      Source.unsupported_ne_fault] at hf

/-- What comes into a phi are values with labels. -/
theorem exists_pairs {incoming : List (ValueId × BlockId)} {preds : List BlockId}
    {operands : List (List Operand)} (h : List.Forall₂ (ComesIn src incoming) preds operands) :
    ∃ pairs : List (Operand × Label), pairs.length = preds.length ∧
      (∀ pair ∈ pairs, pair.1.IsValue) ∧
      operands.flatten = pairs.flatMap fun pair => [pair.1, .label pair.2] := by
  induction h with
  | nil => exact ⟨[], rfl, by simp, rfl⟩
  | @cons p os preds operands hin _ ih =>
    obtain ⟨pairs, hlength, hall, hflatten⟩ := ih
    obtain ⟨-, w, o, -, hstands, rfl⟩ := hin
    have hvalue : o.IsValue := by
      cases hstands <;> simp [Operand.IsValue, Operand.kind]
    refine ⟨(o, p + 1) :: pairs, congrArg (· + 1) hlength,
      List.forall_mem_cons.2 ⟨hvalue, hall⟩, ?_⟩
    rw [List.flatten_cons, hflatten, List.flatMap_cons]

/-- A phi can be made unless no value comes in. -/
theorem make_phi_eq_error {incoming : List (ValueId × BlockId)} {preds : List BlockId}
    {operands : List (List Operand)} (h : List.Forall₂ (ComesIn src incoming) preds operands)
    {r : Reg} (hf : Instr.make .phi (.reg r :: operands.flatten) = .error e) :
    preds = [] ∧ e = .operandCount Opcode.phi.name Opcode.phi.specs.length 1 := by
  by_cases hpreds : preds = []
  · subst hpreds
    cases h
    cases hf
    exact ⟨rfl, rfl⟩
  · obtain ⟨pairs, hlength, hall, hflatten⟩ := exists_pairs h
    have hne : pairs ≠ [] :=
      List.ne_nil_of_length_pos (hlength ▸ List.length_pos_of_ne_nil hpreds)
    rw [hflatten] at hf
    have hshape : Opcode.phi.Shape (.reg r :: pairs.flatMap fun pair => [pair.1, .label pair.2]) :=
      ⟨r, pairs, hne, hall, rfl⟩
    obtain ⟨ins, hins⟩ := exists_make_iff.2 hshape
    cases hf.symm.trans hins

theorem phiOperands_eq_fault (hp : Proper src) (h : Context.Ready src.func c) {t : TypeId}
    {incoming : List (ValueId × BlockId)} (hi : i ∈ src.func.instrsOf b)
    (hop : src.func.opOf i = some (.phi t incoming))
    (hf : phiOperands src c i incoming = .error (.fault e)) : Breaks src e := by
  obtain ⟨ins, hins, hb⟩ := Option.bind_eq_some_iff.1 (hp.consistent.mem_instrsOf.1 hi)
  simp only [phiOperands, Except.bind_eq_error, incomings_ne_fault hp hi, Except.pure_ne_error,
    and_false, exists_false, or_false, false_or] at hf
  obtain ⟨incs, hincs, hf⟩ := hf
  obtain ⟨inc, hinc, hf⟩ := Except.exists_of_mapM_eq_error hf
  obtain ⟨p, hpmem, hfrom⟩ := exists_mem_of_forall₂ (incomings_eq_ok hins hb hincs).flip hinc
  obtain ⟨hmem, rfl, -⟩ := incomingFrom_eq_ok hfrom
  have hlabel := h.label_eq_ok.2 ⟨hp.consistent.pred_lt hpmem, rfl⟩
  simp only [incomingOperands, Except.bind_eq_error, liftFault_eq_fault, hlabel, reduceCtorEq,
    Except.pure_ne_error, and_false, exists_false, or_false] at hf
  exact valueOperand_eq_fault hp h hi hop (List.mem_map_of_mem hmem) hf

theorem selectPhi_eq_fault (hp : Proper src) (h : Context.Ready src.func c) {t : TypeId}
    {incoming : List (ValueId × BlockId)} (hi : i ∈ src.func.instrsOf b)
    (hins : src.func.instrs[i]? = some ins) (ht : ins.type = t)
    (hop : src.func.opOf i = some (.phi t incoming))
    (hf : selectPhi src i t incoming c = .error (.fault e) c') : Breaks src e := by
  subst ht
  obtain ⟨s, hs⟩ := hp.exists_text hins
  unfold selectPhi at hf
  split at hf
  · simp [EStateM.bind_eq_error, liftFaultStop_eq_fault, hs, EStateM.throw_eq_error,
      EStateM.throw_ne_ok, Source.unsupported_ne_fault] at hf
  simp only [EStateM.bind_eq_error, EStateM.get_ne_error, EStateM.get_eq_ok, EStateM.pure_ne_error,
    liftStop_eq_error, liftStop_eq_ok, liftFaultStop_eq_fault, and_false, exists_false,
    or_false, false_or] at hf
  rcases hf with hf | ⟨r, _, hout, _, _, ⟨rfl, rfl⟩, ⟨hf, -⟩ | ⟨ops, _, ⟨hops, rfl⟩, hf, -⟩⟩
  · exact absurd hf (outputReg_ne_fault hp.consistent h hins)
  all_goals obtain ⟨rfl, -⟩ := outputReg_eq_ok hp.consistent h hins hout
  · exact phiOperands_eq_fault hp h hi hop hf
  · have hb : ins.block = some b := by
      simpa [Func.blockOf, hins] using hp.consistent.mem_instrsOf.1 hi
    simp only [phiOperands, Except.bind_eq_ok, Except.pure_eq_ok, Except.mapM_eq_ok] at hops
    obtain ⟨incs, hincs, ops, hops, rfl⟩ := hops
    have hexist : ∀ inc ∈ incoming, ∃ x, src.func.values[inc.1]? = some x := fun inc hinc =>
      ⟨_, Array.getElem?_eq_getElem (hp.lt_values hi hop (List.mem_map_of_mem hinc))⟩
    obtain ⟨hpreds, rfl⟩ := make_phi_eq_error
      (forall₂_comesIn h hexist (incomings_eq_ok hins hb hincs) hops) hf
    obtain rfl : incoming = [] := by
      have hperm := (hp.wellFormed.phis b i hi _ _ hop).perm
      rw [hpreds] at hperm
      simpa using hperm.eq_nil
    exact .phi hi hop hpreds

/-- Selecting the instructions for an instruction stops with no other fault. -/
theorem select_eq_fault (hp : Proper src) (h : Context.Ready src.func c)
    (hi : i ∈ src.func.instrsOf b) (hf : select src i c = .error (.fault e) c') :
    Breaks src e := by
  obtain ⟨op, hop⟩ := Option.isSome_iff_exists.1
    (hp.consistent.isSome_opOf (hp.consistent.mem_instrsOf.1 hi))
  obtain ⟨ins, hins, hinsop⟩ := Option.bind_eq_some_iff.1 hop
  have htype : ins.type = op.type := by simp [Codegen.Instr.type, hinsop]
  simp only [select, EStateM.bind_eq_error, EStateM.get_ne_error, EStateM.get_eq_ok,
    liftStop_eq_error, liftStop_eq_ok, liftFault_eq_fault, liftFault_eq_ok,
    Func.instr_eq_ok.2 hins, reduceCtorEq, false_and, false_or] at hf
  obtain ⟨_, _, ⟨rfl, rfl⟩, _, _, ⟨hins', rfl⟩, hf⟩ := hf
  obtain rfl := Except.ok.inj hins'
  simp only [hinsop] at hf
  cases op with
  | alloca t elem n a =>
    simp only [EStateM.bind_eq_error, liftStop_eq_error, slotFor_ne_fault h hins, false_and,
      EStateM.pure_ne_error, and_false, exists_false, or_false] at hf
  | phi t incoming => exact selectPhi_eq_fault hp h hi hins htype hop hf
  | load t addr => exact absurd hf (selectLoad_ne_fault hp h hi hins htype hop)
  | store w addr => exact selectStore_eq_fault hp h hi hop (liftStop_eq_error.1 hf).1
  | binary o t x y => exact selectBinary_eq_fault hp h hi hins htype hop hf
  | icmp p t x y => exact absurd (liftStop_eq_error.1 hf).1 (selectIcmp_ne_fault hp h hins)
  | br target => exact absurd (liftStop_eq_error.1 hf).1 (selectBr_ne_fault hp h hi hop)
  | condBr cond l r => exact selectCondBr_eq_fault hp h hi hop (liftStop_eq_error.1 hf).1
  | ret w => exact selectRet_eq_fault hp h hi hop (liftStop_eq_error.1 hf).1
  | sext | zext | getElementPtr | call =>
    exact absurd (EStateM.throw_eq_error.1 hf).1 Source.unsupported_ne_fault

end Rules

/-! ### Lowering a function -/

section Lowering

variable {src : Source} {s s' : Compiler} {b : BlockId} {e : Fault}

theorem lowerInstrs_eq_fault (hp : Proper src) (h : Context.Ready src.func s.context)
    {is : List InstrId} (his : ∀ i ∈ is, i ∈ src.func.instrsOf b)
    (hf : Compiler.lowerInstrs src is s = .error (.fault e) s') : Breaks src e := by
  induction is generalizing s with
  | nil => exact absurd hf EStateM.pure_ne_error
  | cons i is ih =>
    obtain ⟨hi, his⟩ := List.forall_mem_cons.1 his
    simp only [Compiler.lowerInstrs, EStateM.bind_eq_error] at hf
    rcases hf with hf | ⟨_, s₁, hl, hf | ⟨_, s₂, hlimit, hf⟩⟩
    · unfold Compiler.lowerInstr at hf
      split at hf
      · cases hf
      · next stop c hsel =>
        cases hf
        exact select_eq_fault hp h hi hsel
    · simp only [Compiler.checkLimit, EStateM.bind_eq_error, EStateM.get_ne_error,
        EStateM.get_eq_ok, false_or] at hf
      obtain ⟨_, _, ⟨rfl, rfl⟩, hf⟩ := hf
      split at hf
      · exact absurd (EStateM.throw_eq_error.1 hf).1 Stop.ofCause_ne_fault
      · exact absurd hf EStateM.pure_ne_error
    · obtain rfl := checkLimit_eq_ok hlimit
      obtain ⟨hc, -⟩ := lowerInstr_eq_ok hp.consistent h hi hl
      exact ih (hc ▸ h) his hf

theorem lowerBlock_eq_fault (hp : Proper src) (h : Context.Ready src.func s.context) {blk : Block}
    (hb : src.func.blocks[b]? = some blk)
    (hf : Compiler.lowerBlock src (b, blk) s = .error (.fault e) s') : Breaks src e := by
  have his : ∀ i ∈ blk.instrs, i ∈ src.func.instrsOf b := fun i hi =>
    Func.instrs_eq_instrsOf hb ▸ hi
  simp only [Compiler.lowerBlock, EStateM.bind_eq_error, EStateM.get_ne_error, EStateM.get_eq_ok,
    atPlace_eq_fault, atPlace_eq_ok, liftFaultStop_eq_fault, EStateM.pure_ne_error, and_false,
    exists_false, or_false, false_or] at hf
  obtain ⟨_, _, ⟨rfl, rfl⟩, hf | ⟨_, s₁, hl, _, _, ⟨rfl, rfl⟩, hf, -⟩⟩ := hf
  · exact lowerInstrs_eq_fault hp h his hf
  · obtain ⟨hc, -⟩ := lowerInstrs_eq_ok (b := b) hp.consistent h his hl
    have hlt := (Array.getElem?_eq_some_iff.1 hb).1
    rw [hc, h.label_eq_ok.2 ⟨hlt, rfl⟩] at hf
    cases hf

theorem lowerBlocks_eq_fault (hp : Proper src) (h : Context.Ready src.func s.context)
    {blks : List (BlockId × Block)}
    (hblks : ∀ b blk, (b, blk) ∈ blks → src.func.blocks[b]? = some blk)
    (hf : blks.mapM (Compiler.lowerBlock src) s = .error (.fault e) s') : Breaks src e := by
  induction blks generalizing s with
  | nil => exact absurd hf EStateM.pure_ne_error
  | cons blk blks ih =>
    obtain ⟨b, blk⟩ := blk
    have hb := hblks b blk List.mem_cons_self
    simp only [List.mapM_cons, EStateM.bind_eq_error, EStateM.pure_ne_error, and_false,
      exists_false, or_false] at hf
    rcases hf with hf | ⟨range, s₁, hl, hf⟩
    · exact lowerBlock_eq_fault hp h hb hf
    · obtain ⟨hc, -⟩ := lowerBlock_eq_ok hp.consistent h hb hl
      exact ih (hc ▸ h) (fun b blk hmem => hblks b blk (List.mem_cons_of_mem _ hmem)) hf

theorem start_eq_fault (hp : Proper src) (hf : Compiler.start src s = .error (.fault e) s') :
    Breaks src e := by
  unfold Compiler.start at hf
  split at hf
  · cases hf
  · next e' c hinit =>
    cases hf
    obtain ⟨hlt, rfl⟩ := Context.init_eq_error hp.consistent hp.exist hinit
    exact .registers hlt

theorem lowerFunc_eq_fault (hp : Proper src)
    (hf : Compiler.lowerFunc src s = .error (.fault e) s') : Breaks src e := by
  simp only [Compiler.lowerFunc, EStateM.bind_eq_error, EStateM.get_ne_error,
    EStateM.pure_ne_error, and_false, exists_false, or_false] at hf
  rcases hf with hf | ⟨_, s₁, hstart, hf⟩
  · exact start_eq_fault hp hf
  · obtain ⟨hready, -⟩ := start_eq_ok hp.consistent hstart
    exact lowerBlocks_eq_fault hp hready (fun _ _ => Func.mem_layout.1) hf

/-- Compiling stops with no fault but those that are left, for every function that is built step by
step, has known types and operands that are there, and passes the check. -/
theorem compile_eq_fault (hbuilt : src.func.Built) (ht : src.TypesKnown)
    (ho : src.func.OperandsExist)
    (hpresent : ∀ i ∈ src.func.inserted, ∀ op ∈ src.func.opOf i, ValueId.absent ∉ op.args)
    (hcheck : src.func.check src.types = .ok ())
    (hf : Compiler.compile src s = .error (.fault e) s') : Breaks src e := by
  have hcon := hbuilt.consistent
  have hp : Proper src := {
    consistent := hcon
    known := ht
    exist := ho
    present := fun i hi op hop v hv habsent => by
      obtain rfl := hbuilt.eq_absent habsent
      exact hpresent i hi op hop hv
    wellFormed := hcon.wellFormed ho hcheck }
  unfold Compiler.compile at hf
  split at hf
  · cases hf
  · next stop s₁ hl =>
    cases hf
    exact lowerFunc_eq_fault hp hl

/-! ### Functions that break lowering -/

/-- The function that returns a phi without incoming values. -/
def hollow : Source where
  types := Func.sampleTypes
  func := (Func.sampleStart.assemble [] [[.phi 2 [], .ret (some 2)]]).getD Func.sampleStart

theorem built_hollow : hollow.func.Built := by
  simpa only [hollow] using Func.built_assembled _ _

/-- The function that returns its argument, before it gets a block that cannot be reached. -/
def strayStart : Func :=
  (Func.sampleStart.assemble [] [[.ret (some 1)], []]).getD Func.sampleStart

/-- The function that returns its argument, with a block that cannot be reached and that adds an
address which is reserved in no block. -/
def stray : Source where
  types := Func.sampleTypes
  func := ((strayStart.addInstr.2.updateInstr 1 ({ · with op := some (.alloca 4 2 1 4) })).appendAll
    [(1, .binary .add 2 1 3), (1, .ret (some 1))]).getD Func.sampleStart

theorem built_stray : stray.func.Built := by
  have hstart : strayStart.Built := Func.built_assembled _ _
  have hblank : strayStart.addInstr.2.blockOf 1 = none := rfl
  have hset : strayStart.addInstr.2.setOperation 1 (.alloca 4 2 1 4) =
      .ok (strayStart.addInstr.2.updateInstr 1 ({ · with op := some (.alloca 4 2 1 4) })) := rfl
  simpa only [stray] using Func.built_sampleStart.getD fun _ hfunc =>
    (hstart.addInstr.setOperation hblank hset).appendAll hfunc

theorem grounded_sampleTypes : Func.sampleTypes.Grounded :=
  (((TypeTable.Grounded.start.intern (.int 32) (by decide)).intern (.int 1) (by decide)).intern
    (.pointer TypeId.invalid) (by decide)).intern (.function 2 [2] false) (by decide)

theorem compile_eq_fault_samples :
    hollow.func.check hollow.types = .ok () ∧ stray.func.check stray.types = .ok () ∧
      fault? (Compiler.compile hollow {}) = some (.operandCount "PHI" 3 1) ∧
      Breaks hollow (.operandCount "PHI" 3 1) ∧
      fault? (Compiler.compile stray {}) = some (.typeComponent "IntBits" "pointer") ∧
      Breaks stray (.typeComponent "IntBits" "pointer") := by
  have hollow_known : hollow.TypesKnown :=
    ⟨grounded_sampleTypes, by decide +kernel, by decide +kernel⟩
  have stray_known : stray.TypesKnown :=
    ⟨grounded_sampleTypes, by decide +kernel, by decide +kernel⟩
  have hollow_check : hollow.func.check hollow.types = .ok () := by decide +kernel
  have stray_check : stray.func.check stray.types = .ok () := by decide +kernel
  have hollow_fault : fault? (Compiler.compile hollow {}) = some (.operandCount "PHI" 3 1) := by
    decide +kernel
  have stray_fault :
      fault? (Compiler.compile stray {}) = some (.typeComponent "IntBits" "pointer") := by
    decide +kernel
  obtain ⟨_, hollow_stop⟩ := eq_error_of_fault? hollow_fault
  obtain ⟨_, stray_stop⟩ := eq_error_of_fault? stray_fault
  refine ⟨hollow_check, stray_check, hollow_fault, ?_, stray_fault, ?_⟩
  · exact compile_eq_fault built_hollow hollow_known (by decide +kernel) (by decide +kernel)
      hollow_check hollow_stop
  · exact compile_eq_fault built_stray stray_known (by decide +kernel) (by decide +kernel)
      stray_check stray_stop

end Lowering

end X86

end Codegen
