import Codegen.Proofs.Agreement

/-!
# Blocks run in the same way

The instructions of a block and what was selected for them are run side by side. An instruction that
is neither a phi nor a terminator extends the agreement by its result. Phis extend it by all of
their results at once, with what they read where control comes from. A terminator leaves the block
in the same way on both sides.

## Main results

* `X86.Agrees.step`: one instruction.
* `X86.Agrees.exit`: a terminator.
* `X86.Agrees.phis`: the phis at the head of a block.
* `X86.Agrees.body`: the instructions of a block behind its phis.
-/

namespace Codegen.X86

variable {src : Source} {code : Lowered} {inp : Inputs} {fr fr' : Frame} {s s' : State}
  {b : BlockId} {i j k : InstrId} {v : ValueId} {before after : List InstrId}
  {ins : Codegen.Instr} {op : Operation}

/-! ### What is read -/

/-- An address that an instruction reads is known. -/
theorem Agrees.evalSlot (T : Translation src code) (hr : src.func.Reachable b)
    (hb : src.func.instrsOf b = before ++ i :: after)
    (h : Agrees src inp (src.func.Available b before) fr s) (hop : src.func.opOf i = some op)
    (hphi : op.isPhi = false) (hv : v ∈ op.args) (hj : src.func.values[v]? = some (.result j))
    (ha : src.func.isAlloca j = true) : src.evalSlot inp fr v = some (src.func.slotOf j) := by
  have hlive : src.func.Available b before j :=
    T.wellFormed.uses b hr before i after op hb hop hphi v hv j hj
  simp [Source.evalSlot, Source.evalValue, hj, (h.result hlive).address ha, Datum.address?]

/-! ### New results -/

/-- The result of one instruction extends the agreement. -/
theorem Agrees.push (T : Translation src code) (hr : src.func.Reachable b)
    (hb : src.func.instrsOf b = before ++ i :: after)
    (h : Agrees src inp (src.func.Available b before) fr s)
    (hins : src.func.instrs[i]? = some ins) (hmem : s'.mem = fr'.mem)
    (hres : ∀ j, j ≠ i → fr'.results j = fr.results j)
    (hregs : ∀ v, src.func.InRegister v → v ≠ ins.result →
      s'.regs (src.func.regOf v) = s.regs (src.func.regOf v))
    (hi : Holds src inp fr' s' i) :
    Agrees src inp (src.func.Available b (before ++ [i])) fr' s' := by
  refine h.extend T hr hb hmem (fun j hj => hres j (by simpa using hj)) (fun v hv hne => ?_)
    (by simpa using hi)
  refine hregs v hv fun he => hne i List.mem_cons_self ?_
  rw [he]
  exact T.consistent.result_value hins

theorem Translation.width_result (T : Translation src code) (hins : src.func.instrs[i]? = some ins)
    (hv : src.func.InRegister ins.result) (ht : src.types.isInt ins.type 32 = true) :
    code.width src.types (src.func.regOf ins.result) = 32 := by
  rw [T.width_regOf hv, Source.widthOf_eq (Func.valueType_result T.consistent.toNaming hins),
    TypeTable.width_of_isInt ht]

/-- Writing the register of a value leaves the operands that stand for others as they are. -/
theorem Translation.operandWord_write (T : Translation src code) {o : Operand} {w : ValueId}
    (ho : Stands src v o) (hw : src.func.InRegister w) (hne : v ≠ w) (s : State) (n : Nat) :
    (s.write (code.width src.types) (src.func.regOf w) n).operandWord o = s.operandWord o := by
  cases ho with
  | reg hv => simp [State.operandWord, State.word, State.regs_write, T.regOf_ne hv hw hne]
  | imm => rfl

/-- The result of an operation that is carried in a register extends the agreement. -/
theorem Agrees.carry (T : Translation src code) (hr : src.func.Reachable b)
    (hb : src.func.instrsOf b = before ++ i :: after)
    (h : Agrees src inp (src.func.Available b before) fr s)
    (hins : src.func.instrs[i]? = some ins) (hop : ins.op = some op) (hc : op.isCarried = true)
    (hv : src.func.InRegister ins.result) (hmem : s'.mem = s.mem)
    (hregs : ∀ r, r ≠ src.func.regOf ins.result → s'.regs r = s.regs r) {x : BitVec 32}
    (ht : src.types.isInt ins.type 32 = true)
    (hx : s'.regs (src.func.regOf ins.result) = x.toNat) :
    Agrees src inp (src.func.Available b (before ++ [i])) (fr.set i (.number x.toNat)) s' := by
  refine h.push T hr hb hins (hmem.trans h.mem) (fun j hj => fr.results_set_of_ne hj _)
    (fun w hw hne => hregs _ (T.regOf_ne hw hv hne)) (.of_carried hins hop hc hv ?_ ?_)
  · rw [hx, TypeTable.width_of_isInt ht]
    exact x.isLt
  · rw [hx, fr.results_set_self]

/-! ### Machine instructions -/

theorem runCode_cons {width : Reg → Nat} {m : Instr} {rest : List Instr}
    (h : exec width m s = some (none, s')) :
    runCode width (m :: rest) s = runCode width rest s' := by
  rw [runCode, h]

theorem runCode_exit {width : Reg → Nat} {m : Instr} {rest : List Instr} {e : Exit Label}
    (h : exec width m s = some (some e, s')) : runCode width (m :: rest) s = some (e, s') := by
  rw [runCode, h]

/-- Sums and differences overwrite their left operand. -/
theorem exec_binary (width : Reg → Nat) {m : Instr} {op : BinaryOp} {rr ri : Opcode} {r : Reg}
    {o : Operand} {y : BitVec 32} (hop : binaryOpcodes op = some (rr, ri))
    (h : m.Is (o.form rr ri) [.reg r, o]) (hy : s.operandWord o = some y) :
    ∃ z fl, op.eval? (s.word r) y = some z ∧
      exec width m s = some (none, { s.write width r z.toNat with flags := fl }) := by
  cases op <;> cases hop
  case add =>
    refine ⟨s.word r + y, .ofAdd (s.word r) y, rfl, ?_⟩
    cases o <;> simp_all [exec, h.1, h.2, Operand.form, State.operandWord]
  case sub =>
    refine ⟨s.word r - y, .ofSub (s.word r) y, rfl, ?_⟩
    cases o <;> simp_all [exec, h.1, h.2, Operand.form, State.operandWord]

theorem exec_cmp {width : Reg → Nat} {m : Instr} {r : Reg} {o : Operand} {x : BitVec 32}
    (h : m.Is (o.form .cmprr32 .cmpri32) [.reg r, o]) (hx : s.operandWord o = some x) :
    exec width m s = some (none, { s with flags := .ofSub (s.word r) x }) := by
  cases o <;> simp_all [exec, h.1, h.2, Operand.form, State.operandWord]

theorem exec_jump {width : Reg → Nat} {m : Instr} {jump : Opcode} {l : Label} {t : Bool}
    (h : m.Is jump [.label l]) (ht : s.flags.taken jump = some t) :
    exec width m s = some (if t then some (.goto l) else none, s) := by
  cases jump <;> simp_all [exec, h.1, h.2, Flags.taken]

theorem exec_jmp {width : Reg → Nat} {m : Instr} {l : Label} (h : m.Is .jmp [.label l]) :
    exec width m s = some (some (.goto l), s) := by
  simp [exec, h.1, h.2]

theorem exec_move {width : Reg → Nat} {m : Instr} {r : Reg} {o : Operand} {x : BitVec 32}
    (h : m.Is (o.form .movrr32 .movri32) [.reg r, o]) (hx : s.operandWord o = some x) :
    exec width m s = some (none, s.write width r x.toNat) := by
  cases o <;> simp_all [exec, h.1, h.2, Operand.form, State.operandWord]

theorem exec_ret {width : Reg → Nat} {m : Instr} (h : m.Is .ret []) :
    exec width m s = some (some (.returned (s.word eax)), s) := by
  simp [exec, h.1, h.2]

theorem exec_store {width : Reg → Nat} {m : Instr} {slot : SlotId} {o : Operand} {x : BitVec 32}
    (h : m.Is (o.form .movmr32 .movmi32) [.slot slot, o]) (hx : s.operandWord o = some x) :
    exec width m s = some (none, s.store slot x) := by
  cases o <;> simp_all [exec, h.1, h.2, Operand.form, State.operandWord]

/-! ### One instruction -/

/-- An instruction that is no phi and no terminator extends the agreement: it does the same on both
sides. -/
def Steps (src : Source) (inp : Inputs) (code : Lowered) (b : BlockId) (before : List InstrId)
    (i : InstrId) (op : Operation) (is : List Instr) (fr : Frame) (s : State) : Prop :=
  ∃ fr' s', src.execOp inp i op fr = some fr' ∧
    (∀ rest, runCode (code.width src.types) (is ++ rest) s =
      runCode (code.width src.types) rest s') ∧
    Agrees src inp (src.func.Available b (before ++ [i])) fr' s'

section Step

variable (T : Translation src code) (hr : src.func.Reachable b)
  (hb : src.func.instrsOf b = before ++ i :: after)
  (h : Agrees src inp (src.func.Available b before) fr s)
  (hins : src.func.instrs[i]? = some ins)

include T hr hb h hins

theorem Agrees.stepLoad {t : TypeId} {addr : ValueId} {m : Instr}
    (hop : ins.op = some (.load t addr)) (ht : src.types.isInt t 32 = true)
    (haddr : src.func.values[addr]? = some (.result j)) (ha : src.func.isAlloca j = true)
    (hm : m.Is .movrm32 [.reg (src.func.regOf ins.result), .slot (src.func.slotOf j)])
    (hv : src.func.InRegister ins.result) :
    Steps src inp code b before i (.load t addr) [m] fr s := by
  have hopOf : src.func.opOf i = some (.load t addr) := by simp [Func.opOf, hins, hop]
  have htype : ins.type = t := by simp [Codegen.Instr.type, hop, Operation.type]
  have hslot := h.evalSlot T hr hb hopOf rfl (v := addr) (by simp [Operation.args]) haddr ha
  refine ⟨fr.set i (.number (fr.mem (src.func.slotOf j)).toNat),
    s.write (code.width src.types) (src.func.regOf ins.result) (s.mem (src.func.slotOf j)).toNat,
    by simp [Source.execOp, ht, hslot], fun rest => ?_, ?_⟩
  · exact runCode_cons (by simp [exec, hm.1, hm.2])
  · refine h.carry T hr hb hins hop rfl hv (State.mem_write ..)
      (fun r hne => by simp [State.regs_write, hne]) (htype ▸ ht) ?_
    have hlt := (fr.mem (src.func.slotOf j)).isLt
    simp [State.regs_write, T.width_result hins hv (htype ▸ ht), h.mem, Nat.mod_eq_of_lt hlt]

theorem Agrees.stepStore {w addr : ValueId} {o : Operand} {m : Instr}
    (hop : ins.op = some (.store w addr)) (hw : src.isWord w = true)
    (haddr : src.func.values[addr]? = some (.result j)) (ha : src.func.isAlloca j = true)
    (ho : Stands src w o)
    (hm : m.Is (o.form .movmr32 .movmi32) [.slot (src.func.slotOf j), o]) :
    Steps src inp code b before i (.store w addr) [m] fr s := by
  have hopOf : src.func.opOf i = some (.store w addr) := by simp [Func.opOf, hins, hop]
  have hslot := h.evalSlot T hr hb hopOf rfl (v := addr) (by simp [Operation.args]) haddr ha
  obtain ⟨n, hn, -, hword⟩ := h.operand T ho
    (T.laid.read T.consistent T.wellFormed hr hb hopOf rfl (by simp [Operation.args])
      (fun _ _ => by simp))
  refine ⟨fr.store (src.func.slotOf j) (BitVec.ofNat 32 n),
    s.store (src.func.slotOf j) (BitVec.ofNat 32 n),
    by simp [Source.execOp, hslot, Source.evalWord, hw, Source.evalNumber, hn, Datum.number?],
    fun rest => runCode_cons (exec_store hm (hword hw)), ?_⟩
  refine h.push T hr hb hins (by simp [State.store, Frame.store, h.mem]) (fun _ _ => rfl)
    (fun _ _ _ => rfl)
    (.of_not_carried hopOf rfl (fun ha => ?_) (fun _ _ _ _ hicmp => by cases hicmp))
  simp [Func.isAlloca, hopOf] at ha

theorem Agrees.stepBinary {op : BinaryOp} {t : TypeId} {x y : ValueId} {rr ri : Opcode}
    {o : Operand} {copy m : Instr} (hop : ins.op = some (.binary op t x y))
    (hrr : binaryOpcodes op = some (rr, ri)) (ht : src.types.isInt t 32 = true)
    (hx : Stands src x (.reg (src.func.regOf x))) (ho : Stands src y o)
    (hcopy : copy.Is .movrr32 [.reg (src.func.regOf ins.result), .reg (src.func.regOf x)])
    (hm : m.Is (o.form rr ri) [.reg (src.func.regOf ins.result), o])
    (hv : src.func.InRegister ins.result) :
    Steps src inp code b before i (.binary op t x y) [copy, m] fr s := by
  have hopOf : src.func.opOf i = some (.binary op t x y) := by simp [Func.opOf, hins, hop]
  have htype : ins.type = t := by simp [Codegen.Instr.type, hop, Operation.type]
  obtain ⟨htx, hty⟩ := T.wellTyped i (Func.mem_inserted.2 ⟨b, by simp [hb]⟩) _ hopOf
  have hwx := isWord_of_valueType htx ht
  have hwy := isWord_of_valueType hty ht
  obtain ⟨m₁, hx₁, -, hword₁⟩ := h.operand T hx
    (T.laid.read T.consistent T.wellFormed hr hb hopOf rfl (by simp [Operation.args])
      (fun _ _ => by simp))
  have hread := T.laid.read T.consistent T.wellFormed hr hb hopOf rfl (v := y)
    (by simp [Operation.args]) (fun _ _ => by simp)
  obtain ⟨m₂, hy₂, -, hword₂⟩ := h.operand T ho hread
  -- The copy leaves the right operand as it is, since that is not the result.
  have hne : y ≠ ins.result := by
    rintro rfl
    have hlive := (hread i (T.consistent.result_value hins)).1
    exact hlive.not_mem T.consistent hb List.mem_cons_self
  have hcopied : (s.write (code.width src.types) (src.func.regOf ins.result)
      (s.word (src.func.regOf x)).toNat).word (src.func.regOf ins.result) = BitVec.ofNat 32 m₁ := by
    have hword : s.word (src.func.regOf x) = BitVec.ofNat 32 m₁ := Option.some.inj (hword₁ hwx)
    rw [s.word_write_self (T.width_result hins hv (htype ▸ ht)), hword]
  have hright := (T.operandWord_write ho hv hne s (s.word (src.func.regOf x)).toNat).trans
    (hword₂ hwy)
  obtain ⟨z, fl, hz, hexec⟩ := exec_binary (code.width src.types) hrr hm hright
  refine ⟨fr.set i (.number z.toNat), _, ?_, fun rest =>
    (runCode_cons (by simp [exec, hcopy.1, hcopy.2])).trans (runCode_cons hexec), ?_⟩
  · rw [hcopied] at hz
    simp only [Source.execOp, Source.evalNumber, hx₁, hy₂, Option.bind_eq_bind, Option.bind_some,
      Datum.number?]
    rw [TypeTable.width_of_isInt ht, hz]
    rfl
  · refine h.carry T hr hb hins hop rfl hv ?_ (fun r hne => ?_) (htype ▸ ht) ?_
    · rfl
    · simp [State.regs_write, hne]
    · simp [State.regs_write, T.width_result hins hv (htype ▸ ht), Nat.mod_eq_of_lt z.isLt]

theorem Agrees.stepIcmp {p : Predicate} {t : TypeId} {x y : ValueId}
    (hop : ins.op = some (.icmp p t x y)) :
    Steps src inp code b before i (.icmp p t x y) [] fr s := by
  have hopOf : src.func.opOf i = some (.icmp p t x y) := by simp [Func.opOf, hins, hop]
  obtain ⟨-, hx, hty⟩ := T.wellTyped i (Func.mem_inserted.2 ⟨b, by simp [hb]⟩) _ hopOf
  have hy : src.isComparable y = true := by rwa [Source.isComparable, hty, ← Source.isComparable]
  have hread : ∀ v ∈ [x, y], ∀ k, src.func.values[v]? = some (.result k) →
      src.func.Available b before k := fun v hv k hk =>
    T.wellFormed.uses b hr before i after _ hb hopOf rfl v hv k hk
  have hin : ∀ k, src.func.Available b before k → k ∈ src.func.inserted := fun k hk =>
    hk.mem_inserted T.consistent
  obtain ⟨m, hm⟩ := Option.isSome_iff_exists.1 (h.isSome_evalValue T hx (hread x (by simp)) hin)
  obtain ⟨n, hn⟩ := Option.isSome_iff_exists.1 (h.isSome_evalValue T hy (hread y (by simp)) hin)
  obtain ⟨d, hd⟩ : ∃ d, src.compare inp fr p x y = some d := by simp [Source.compare, hm, hn]
  refine ⟨fr.set i d, s, by simp [Source.execOp, hd], fun rest => rfl, ?_⟩
  refine h.push T hr hb hins h.mem (fun j hj => fr.results_set_of_ne hj _) (fun _ _ _ => rfl)
    (.of_not_carried hopOf rfl (fun ha => ?_) fun p' t' x' y' hicmp => ?_)
  · simp [Func.isAlloca, hopOf] at ha
  · obtain ⟨rfl, rfl, rfl, rfl⟩ : p = p' ∧ t = t' ∧ x = x' ∧ y = y' := by simpa using hicmp
    -- The comparison does not read its own result.
    have hsame : src.compare inp (fr.set i d) p x y = src.compare inp fr p x y :=
      compare_congr fun v hv k hk => by
        have hne : k ≠ i := by
          rintro rfl
          exact (hread v hv k hk).not_mem T.consistent hb List.mem_cons_self
        exact fr.results_set_of_ne hne d
    rw [hsame, hd, fr.results_set_self]
    exact ⟨rfl, rfl⟩

/-- An instruction that is no phi and no terminator does the same on both sides. -/
theorem Agrees.step {is : List Instr} (hop : ins.op = some op) (hphi : op.isPhi = false)
    (hterm : op.isTerminator = false) (hsel : Selected src b ins.result op is) :
    Steps src inp code b before i op is fr s := by
  cases hsel with
  | @alloca t e n a =>
    have hopOf : src.func.opOf i = some (.alloca t e n a) := by simp [Func.opOf, hins, hop]
    refine ⟨fr.set i (.address (src.func.slotOf i)), s, rfl, fun rest => rfl, ?_⟩
    refine h.push T hr hb hins h.mem (fun j hj => fr.results_set_of_ne hj _) (fun _ _ _ => rfl)
      (.of_not_carried hopOf rfl (fun _ => fr.results_set_self i _)
        (fun _ _ _ _ hicmp => by cases hicmp))
  | phi => cases hphi
  | load ht haddr ha hm hv => exact h.stepLoad T hr hb hins hop ht haddr ha hm hv
  | store hw haddr ha ho hm => exact h.stepStore T hr hb hins hop hw haddr ha ho hm
  | binary hrr ht hx ho hcopy hm hv => exact h.stepBinary T hr hb hins hop hrr ht hx ho hcopy hm hv
  | icmp => exact h.stepIcmp T hr hb hins hop
  | br | condBr | ret => cases hterm

/-! ### Terminators -/

/-- A terminator does the same on both sides: it leaves the block for the same place. -/
def Exits (src : Source) (inp : Inputs) (code : Lowered) (b : BlockId) (before : List InstrId)
    (i : InstrId) (op : Operation) (is : List Instr) (fr : Frame) (s : State) : Prop :=
  ∃ e s', src.exitOf inp op fr = some e ∧
    (∀ rest, runCode (code.width src.types) (is ++ rest) s = some (e.map (· + 1), s')) ∧
    Agrees src inp (src.func.Available b (before ++ [i])) fr s' ∧
    ∀ target, e = .goto target → target ∈ op.successors

/-- A terminator has no result. -/
theorem Agrees.pushTerminator (hop : ins.op = some op) (hterm : op.isTerminator = true)
    (hmem : s'.mem = s.mem)
    (hregs : ∀ v, src.func.InRegister v → s'.regs (src.func.regOf v) = s.regs (src.func.regOf v)) :
    Agrees src inp (src.func.Available b (before ++ [i])) fr s' := by
  have hopOf : src.func.opOf i = some op := by simp [Func.opOf, hins, hop]
  refine h.push T hr hb hins (hmem.trans h.mem) (fun _ _ => rfl) (fun v hv _ => hregs v hv)
    (.of_not_carried hopOf ?_ (fun ha => ?_) (fun _ _ _ _ hicmp => ?_))
  · cases op <;> simp_all [Operation.isCarried, Operation.isTerminator]
  · cases op <;> simp_all [Func.isAlloca, Operation.isTerminator]
  · subst hicmp
    cases hterm

theorem Agrees.exitRet {w : ValueId} {o : Operand} {move m : Instr}
    (hop : ins.op = some (.ret (some w))) (hw : src.isWord w = true) (ho : Stands src w o)
    (hmove : move.Is (o.form .movrr32 .movri32) [.reg eax, o]) (hm : m.Is .ret []) :
    Exits src inp code b before i (.ret (some w)) [move, m] fr s := by
  have hopOf : src.func.opOf i = some (.ret (some w)) := by simp [Func.opOf, hins, hop]
  obtain ⟨n, hn, -, hword⟩ := h.operand T ho
    (T.laid.read T.consistent T.wellFormed hr hb hopOf rfl (by simp [Operation.args])
      (fun _ _ => by simp))
  let s' := s.write (code.width src.types) eax (BitVec.ofNat 32 n).toNat
  have heax : s'.word eax = BitVec.ofNat 32 n := s.word_write_self rfl _
  refine ⟨.returned (BitVec.ofNat 32 n), s', ?_, fun rest => ?_, ?_, fun _ he => by cases he⟩
  · simp [Source.exitOf, Source.evalWord, hw, Source.evalNumber, hn, Datum.number?]
  · refine (runCode_cons (exec_move hmove (hword hw))).trans ((runCode_exit (exec_ret hm)).trans ?_)
    rw [heax, Exit.map]
  · refine h.pushTerminator T hr hb hins hop rfl rfl fun v hv => ?_
    have hne : src.func.regOf v ≠ eax := fun he => by
      have hreal := T.isReal_regOf hv
      rw [he] at hreal
      exact absurd hreal (by decide)
    simp [s', State.regs_write, hne]

theorem Agrees.exitCondBr {cond x y x' y' : ValueId} {l r : BlockId} {p : Predicate} {t : TypeId}
    {jump : Opcode} {o : Operand} {compare taken other : Instr}
    (hop : ins.op = some (.condBr cond l r))
    (hcond : src.func.values[cond]? = some (.result j))
    (hj : src.func.opOf j = some (.icmp p t x y)) (hwx : src.isWord x = true)
    (hcmp : Compares p x y x' y' jump) (hx' : Stands src x' (.reg (src.func.regOf x')))
    (ho : Stands src y' o)
    (hcompare : compare.Is (o.form .cmprr32 .cmpri32) [.reg (src.func.regOf x'), o])
    (htaken : taken.Is jump [.label (l + 1)]) (hother : other.Is .jmp [.label (r + 1)]) :
    Exits src inp code b before i (.condBr cond l r) [compare, taken, other] fr s := by
  have hopOf : src.func.opOf i = some (.condBr cond l r) := by simp [Func.opOf, hins, hop]
  have hlive : src.func.Available b before j :=
    T.wellFormed.uses b hr before i after _ hb hopOf rfl cond (by simp [Operation.args]) j hcond
  have hin := hlive.mem_inserted T.consistent
  obtain ⟨-, -, hty⟩ := T.wellTyped j hin _ hj
  have hwy : src.isWord y = true := by rwa [Source.isWord, hty, ← Source.isWord]
  -- The operands of the comparison are still those that it has read.
  have hread (v : ValueId) (hv : v ∈ [x, y]) {o : Operand} (hv' : Stands src v o) :
      ∃ n, src.evalValue inp fr v = some (.number n) ∧
        s.operandWord o = some (BitVec.ofNat 32 n) := by
    obtain ⟨n, hn, -, hword⟩ := h.operand T hv' fun k hk => by
      have hk' := hlive.operand T.consistent T.wellFormed hr hb hj rfl hv hk
      have hkin := hk'.mem_inserted T.consistent
      exact ⟨hk', hkin, T.laid.not_icmp T.consistent hin hj hv (fun _ _ => by simp) hk hkin⟩
    exact ⟨n, hn, hword (by rcases List.mem_pair.1 hv with rfl | rfl <;> assumption)⟩
  have hmem : x' ∈ [x, y] ∧ y' ∈ [x, y] := by cases hcmp <;> simp
  obtain ⟨m, hm, hmword⟩ := hread x' hmem.1 hx'
  obtain ⟨n, hn, hnword⟩ := hread y' hmem.2 ho
  have hwordx : s.word (src.func.regOf x') = BitVec.ofNat 32 m := Option.some.inj hmword
  obtain ⟨holds, hcompares, htakes⟩ := hcmp.taken hwx hm hn
  have hholds : fr.results j = some (.number holds.toNat) := by
    rw [← ((h.result hlive).condition hj).2, hcompares]
  have hexit : src.exitOf inp (.condBr cond l r) fr = some (.goto (if holds then l else r)) := by
    cases holds <;>
      simp [Source.exitOf, Source.evalNumber, Source.evalValue, hcond, hholds, Datum.number?]
  let s' : State := { s with flags := .ofSub (BitVec.ofNat 32 m) (BitVec.ofNat 32 n) }
  refine ⟨_, s', hexit, fun rest => ?_, ?_, ?_⟩
  · have hcompared : exec (code.width src.types) compare s = some (none, s') := by
      rw [exec_cmp hcompare hnword, hwordx]
    have hjump : exec (code.width src.types) taken s' =
        some (if holds then some (.goto (l + 1)) else none, s') := exec_jump htaken htakes
    refine (runCode_cons hcompared).trans ?_
    cases holds with
    | true => exact runCode_exit hjump
    | false => exact (runCode_cons hjump).trans (runCode_exit (exec_jmp hother))
  · exact h.pushTerminator T hr hb hins hop rfl rfl fun v hv => rfl
  · rintro target ⟨⟩
    split <;> simp [Operation.successors]

/-- A terminator leaves the block for the same place on both sides. -/
theorem Agrees.exit {is : List Instr} (hop : ins.op = some op) (hterm : op.isTerminator = true)
    (hsel : Selected src b ins.result op is) : Exits src inp code b before i op is fr s := by
  cases hsel with
  | alloca | phi | load | store | binary | icmp => cases hterm
  | @br target m hm =>
    refine ⟨.goto target, s, rfl, fun rest => runCode_exit (exec_jmp hm),
      h.pushTerminator T hr hb hins hop rfl rfl fun _ _ => rfl, ?_⟩
    rintro _ ⟨⟩
    simp [Operation.successors]
  | condBr hcond hj hwx hcmp hx' ho hcompare htaken hother =>
    exact h.exitCondBr T hr hb hins hop hcond hj hwx hcmp hx' ho hcompare htaken hother
  | ret hw ho hmove hm => exact h.exitRet T hr hb hins hop hw ho hmove hm

end Step

/-! ### Phis -/

/-- The register for the result of an instruction. -/
def regFor (f : Func) (i : InstrId) : Reg :=
  match f.instrs[i]? with
  | some ins => f.regOf ins.result
  | none => Reg.invalid

/-- The number that a phi gets when control comes from a block. -/
def phiNumber (src : Source) (inp : Inputs) (p : BlockId) (fr : Frame) (i : InstrId) : Nat :=
  ((src.phiInput inp (some p) fr i).bind Datum.number?).getD 0

/-- A phi gets the same number on both sides. -/
theorem Agrees.phi (T : Translation src code) {p : BlockId} (hp : src.func.Reachable p)
    (hb : b ∈ src.func.succsOf p)
    (h : Agrees src inp (src.func.Available p (src.func.instrsOf p)) fr s)
    (hi : i ∈ src.func.instrsOf b) (hphi : src.func.IsPhi i) {is : List Instr}
    (hsel : SelectedFor src b i is) :
    ∃ ins t incoming m, src.func.instrs[i]? = some ins ∧ ins.op = some (.phi t incoming) ∧
      src.func.InRegister ins.result ∧ is = [m] ∧ m.isPhi = true ∧
      phiNumber src inp p fr i < 2 ^ src.types.width ins.type ∧
      src.phiInput inp (some p) fr i = some (.number (phiNumber src inp p fr i)) ∧
      phiInput (code.width src.types) (some (p + 1)) s m =
        some (regFor src.func i, phiNumber src inp p fr i) := by
  obtain ⟨ins, op, hins, hop, hsel⟩ := hsel
  have hopOf : src.func.opOf i = some op := by simp [Func.opOf, hins, hop]
  cases hsel with
  | @phi t incoming m operands hm hv hin =>
    have hins_in : i ∈ src.func.inserted := Func.mem_inserted.2 ⟨b, hi⟩
    have htype : ins.type = t := by simp [Codegen.Instr.type, hop, Operation.type]
    obtain ⟨w, o, hfind, hstands, hof⟩ :=
      incomingOf_flatten hin (T.consistent.edges.mem_predsOf.2 hb)
    have hmem := List.mem_of_find?_eq_some hfind
    obtain ⟨n, hn, hnum, -⟩ := h.operand T hstands fun k hk => by
      have hformed := T.wellFormed.phis b i hi t incoming hopOf
      have hlive := hformed.available_end T.consistent hmem hp hk
      have hkin := hlive.mem_inserted T.consistent
      exact ⟨hlive, hkin, T.laid.not_icmp T.consistent hins_in hopOf (List.mem_map_of_mem hmem)
        (fun _ _ => by simp) hk hkin⟩
    have hinput : src.phiInput inp (some p) fr i = some (.number n) := by
      simp [Source.phiInput, hopOf, hfind, hn]
    have hnumber : phiNumber src inp p fr i = n := by simp [phiNumber, hinput, Datum.number?]
    have hw : src.widthOf w = src.types.width t :=
      Source.widthOf_eq (T.wellTyped i hins_in _ hopOf _ hmem)
    rw [hw] at hnum
    refine ⟨ins, t, incoming, m, hins, hop, hv, rfl, by simp [Instr.isPhi, hm.1], ?_, ?_, ?_⟩
    · rw [hnumber, htype]
      exact s.operandNumber_lt hnum
    · rw [hinput, hnumber]
    · have hwidth : code.width src.types (src.func.regOf ins.result) = src.types.width t := by
        rw [T.width_regOf hv, Source.widthOf_eq (Func.valueType_result T.consistent.toNaming hins),
          htype]
      simp [phiInput, hm.2, hof, hwidth, hnum, hnumber, regFor, hins]
  | _ => simp [Func.IsPhi, hopOf, Operation.isPhi] at hphi

/-- The results of different instructions are in different registers. -/
theorem Translation.regFor_inj (T : Translation src code) {j : InstrId} {ins ins' : Codegen.Instr}
    (hi : src.func.instrs[i]? = some ins) (hv : src.func.InRegister ins.result)
    (hj : src.func.instrs[j]? = some ins') (hv' : src.func.InRegister ins'.result)
    (h : regFor src.func i = regFor src.func j) : i = j := by
  rw [regFor, hi, regFor, hj] at h
  by_contra hij
  refine T.regOf_ne hv hv' (fun hres => hij ?_) h
  have hval := T.consistent.result_value hi
  rw [hres, T.consistent.result_value hj] at hval
  exact (Value.result.inj (Option.some.inj hval)).symm

/-- The instructions for the phis of a block write the numbers that the phis get, each to the
register of its result. -/
theorem Agrees.mapM_phiInput (T : Translation src code) {p : BlockId} (hp : src.func.Reachable p)
    (hb : b ∈ src.func.succsOf p)
    (h : Agrees src inp (src.func.Available p (src.func.instrsOf p)) fr s) {phis : List InstrId}
    (hmem : ∀ i ∈ phis, i ∈ src.func.instrsOf b) (hphi : ∀ i ∈ phis, src.func.IsPhi i)
    {codes : List (List Instr)} (hcodes : List.Forall₂ (SelectedFor src b) phis codes) :
    codes.flatten.mapM (phiInput (code.width src.types) (some (p + 1)) s) =
      some (phis.map fun i => (regFor src.func i, phiNumber src inp p fr i)) := by
  induction hcodes with
  | nil => rfl
  | @cons i is phis codes hsel hcodes ih =>
    obtain ⟨hi, hmem⟩ := List.forall_mem_cons.1 hmem
    obtain ⟨hiphi, hphi⟩ := List.forall_mem_cons.1 hphi
    obtain ⟨ins, t, incoming, m, -, -, -, rfl, -, -, -, hinput⟩ := h.phi T hp hb hi hiphi hsel
    simp [List.mapM_cons, hinput, ih hmem hphi]

/-- The phis at the head of a block do the same on both sides. -/
theorem Agrees.phis (T : Translation src code) {p : BlockId} (hp : src.func.Reachable p)
    (hb : b ∈ src.func.succsOf p)
    (h : Agrees src inp (src.func.Available p (src.func.instrsOf p)) fr s)
    {phis body : List InstrId} (hsplit : src.func.instrsOf b = phis ++ body)
    (hphi : ∀ i ∈ phis, src.func.IsPhi i)
    {codes : List (List Instr)} (hcodes : List.Forall₂ (SelectedFor src b) phis codes) :
    ∃ fr' s', src.execPhis inp (some p) phis fr = some fr' ∧
      execPhis (code.width src.types) (some (p + 1)) codes.flatten s = some s' ∧
      Agrees src inp (src.func.Available b phis) fr' s' := by
  have hmem : ∀ i ∈ phis, i ∈ src.func.instrsOf b := fun i hi => by simp [hsplit, hi]
  have hphis : ∀ i ∈ phis, ∃ ins t incoming, src.func.instrs[i]? = some ins ∧
      ins.op = some (.phi t incoming) ∧ src.func.InRegister ins.result ∧
      phiNumber src inp p fr i < 2 ^ src.types.width ins.type ∧
      src.phiInput inp (some p) fr i = some (.number (phiNumber src inp p fr i)) := fun i hi => by
    obtain ⟨is, -, hsel⟩ := exists_mem_of_forall₂ hcodes hi
    obtain ⟨ins, t, incoming, m, hins, hop, hv, -, -, hlt, hinput, -⟩ :=
      h.phi T hp hb (hmem i hi) (hphi i hi) hsel
    exact ⟨ins, t, incoming, hins, hop, hv, hlt, hinput⟩
  have hinputs : phis.mapM (src.phiInput inp (some p) fr) =
      some (phis.map fun i => .number (phiNumber src inp p fr i)) :=
    mapM_eq_some_map fun i hi => by
      obtain ⟨ins, t, incoming, -, -, -, -, hinput⟩ := hphis i hi
      exact hinput
  have hwrites := h.mapM_phiInput T hp hb hmem hphi hcodes
  refine ⟨_, _, by rw [Source.execPhis, hinputs]; rfl, by rw [execPhis, hwrites]; rfl, ?_⟩
  have hentry : Agrees src inp (src.func.Available b []) fr s :=
    ⟨h.mem, h.arg, fun hj => h.result (hj.of_edge T.consistent hb)⟩
  refine hentry.extend T (hp.step hb) (by simpa using hsplit) h.mem (fun j hj => ?_)
    (fun v hv hne => ?_) (fun j hj => ?_)
  · rw [Frame.results_setAll_zip, if_neg hj]
  · refine congrArg (Option.getD · _) (lookup_map_eq_none fun i hi he => ?_)
    obtain ⟨ins, t, incoming, hins, -, hv', -⟩ := hphis i hi
    have hvi : v ≠ ins.result := fun hvi => hne i hi (hvi ▸ T.consistent.result_value hins)
    rw [regFor, hins] at he
    exact T.regOf_ne hv hv' hvi he.symm
  · obtain ⟨ins, t, incoming, hins, hop, hv, hlt, -⟩ := hphis j hj
    have hfor : regFor src.func j = src.func.regOf ins.result := by rw [regFor, hins]
    have hreg : (s.writeAll (phis.map fun i => (regFor src.func i, phiNumber src inp p fr i))).regs
        (src.func.regOf ins.result) = phiNumber src inp p fr j := by
      rw [← hfor]
      refine congrArg (Option.getD · _) (lookup_map_of_mem hj fun i hi he => ?_)
      obtain ⟨ins', t', incoming', hins', -, hv', -⟩ := hphis i hi
      exact T.regFor_inj hins' hv' hins hv he
    refine .of_carried hins hop rfl hv ?_ ?_
    · rwa [hreg]
    · rw [Frame.results_setAll_zip, if_pos hj, hreg]

/-! ### Blocks -/

/-- The instructions of a block behind its phis do the same on both sides. -/
theorem Agrees.body (T : Translation src code) (hr : src.func.Reachable b) {is : List InstrId}
    {codes : List (List Instr)} (hcodes : List.Forall₂ (SelectedFor src b) is codes) (hne : is ≠ [])
    (hphi : ∀ i ∈ is, ¬src.func.IsPhi i) (hb : src.func.instrsOf b = before ++ is)
    (h : Agrees src inp (src.func.Available b before) fr s) :
    ∃ e fr' s', src.execBody inp is fr = some (e, fr') ∧
      (∀ rest, runCode (code.width src.types) (codes.flatten ++ rest) s =
        some (e.map (· + 1), s')) ∧
      Agrees src inp (src.func.Available b (src.func.instrsOf b)) fr' s' ∧
      ∀ target, e = .goto target → target ∈ src.func.succsOf b := by
  have hshaped := T.wellFormed.shaped b (hr.lt_size T.consistent)
  induction hcodes generalizing before fr s with
  | nil => exact absurd rfl hne
  | @cons i m is codes hsel hcodes ih =>
    obtain ⟨ins, op, hins, hop, hsel⟩ := hsel
    obtain ⟨hi, hphi⟩ := List.forall_mem_cons.1 hphi
    have hopOf : src.func.opOf i = some op := by simp [Func.opOf, hins, hop]
    have hop_phi : op.isPhi = false := by simpa [Func.IsPhi, hopOf] using hi
    by_cases hnil : is = []
    · subst hnil
      cases hcodes
      have hterm : op.isTerminator = true := by
        simpa [Func.Terminates, hopOf] using (hshaped.terminates_iff hb).2 rfl
      obtain ⟨e, s', hexit, hrun, hagrees, htarget⟩ := h.exit T hr hb hins hop hterm hsel
      refine ⟨e, fr, s', by simp [Source.execBody, hopOf, hterm, hexit], fun rest => ?_, ?_, ?_⟩
      · simpa using hrun rest
      · rwa [hb]
      · intro target he
        exact T.consistent.mem_succsOf.2 ⟨i, by simp [hb], op, hopOf, htarget target he⟩
    · have hterm : op.isTerminator = false := by
        have hnot : ¬src.func.Terminates i := fun ht => hnil ((hshaped.terminates_iff hb).1 ht)
        simpa [Func.Terminates, hopOf] using hnot
      obtain ⟨fr₁, s₁, hexec, hrun₁, h₁⟩ := h.step T hr hb hins hop hop_phi hterm hsel
      have hb₁ : src.func.instrsOf b = (before ++ [i]) ++ is := by simp [hb]
      obtain ⟨e, fr', s', hbody, hrun, hagrees, htarget⟩ := ih hnil hphi hb₁ h₁
      refine ⟨e, fr', s', by simp [Source.execBody, hopOf, hterm, hexec, hbody], fun rest => ?_,
        hagrees, htarget⟩
      rw [List.flatten_cons, List.append_assoc, hrun₁, hrun]

end Codegen.X86
