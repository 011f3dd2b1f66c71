import Codegen.Proofs.Known
import Mathlib.Data.List.Induction

/-!
# Asking a context

Once a context is set up for a function, it is asked for the registers of values and instructions,
for new registers and for slots, in any order and as often as one likes. No question changes an
assignment: the register of a value is its position among the arguments and the results of the
inserted instructions, and the slot of an instruction is its position among those that reserve a
piece of the stack. A new register comes after all that were given out before. The type of a
register is the only thing that changes: it is the type that was asked for last.

## Main definitions

* `Func.residents`, `Func.Holds`: the values that live in registers, and the register of each.
* `Context.ask`, `Context.askAll`: asking one question, and one after the other.
* `Context.granted`, `Context.requested?`: the types that were asked for.
* `Context.Asked`: a context after some questions.
* `Context.Steady`: what comes back on the next question.

## Main results

* `Func.numbered`: registers and the values in them belong to each other.
* `Context.Asked.ask`, `Context.Ready.askAll`: what one question changes, and what all of them do.
* `Context.init_steady`: the registers and slots of a function stay the same under all questions.
-/

namespace Codegen

/-! ### Numbers of registers -/

namespace Reg

/-- Registers with different numbers are different. -/
theorem virtual_inj {m n : Nat} (hm : m < 2 ^ 32) (hn : n < 2 ^ 32) :
    Reg.virtual m = Reg.virtual n ↔ m = n := by
  refine ⟨fun h => ?_, fun h => h ▸ rfl⟩
  have hid := congrArg Reg.id h
  rwa [id_virtual hm, id_virtual hn] at hid

theorem isValid_virtual {n : Nat} (hn : n < reservedId) : (Reg.virtual n).isValid = true := by
  have hid : (Reg.virtual n).id = n := id_virtual (hn.trans (by decide))
  simp only [isValid, hid, bne_iff_ne, ne_eq]
  rintro rfl
  exact absurd hn (by decide)

/-- The register after some others is none of them. -/
theorem ne_virtual_of_lt {r : Reg} {size : Nat} (hsize : size < reservedId)
    (hr : ∃ n < size, r = Reg.virtual n) : r ≠ Reg.virtual size := by
  obtain ⟨n, hn, rfl⟩ := hr
  have hbound : size < 2 ^ 32 := hsize.trans (by decide)
  rw [Ne, virtual_inj (hn.trans hbound) hbound]
  exact Nat.ne_of_lt hn

end Reg

/-! ### The registers of values -/

namespace Func

variable {f : Func} {i : InstrId} {v w : ValueId} {r : Reg}

/-- The values that live in registers, in the order of their registers: the arguments, and then the
results of the inserted instructions in layout order. -/
def residents (f : Func) : List ValueId := f.holders f.params f.inserted

/-- The instructions that reserve a piece of the stack, in layout order. -/
def allocas (f : Func) : List InstrId := f.inserted.filter f.isAlloca

/-- A value lives in the register whose number is its position among the residents. -/
def Holds (f : Func) (v : ValueId) (r : Reg) : Prop :=
  ∃ n, f.residents[n]? = some v ∧ r = Reg.virtual n

theorem resultOf?_eq_some_iff : f.resultOf? i = some v ↔
    ∃ ins, f.instrs[i]? = some ins ∧ ins.hasResult = true ∧ ins.result = v := by
  rw [resultOf?, Option.bind_eq_some_iff]
  refine exists_congr fun ins => and_congr_right fun _ => ?_
  by_cases h : ins.hasResult = true <;> simp [h]

/-- The residents are the arguments and the results of inserted instructions that have one. -/
theorem mem_residents : v ∈ f.residents ↔ v ∈ f.params ∨
    ∃ i ∈ f.inserted, ∃ ins, f.instrs[i]? = some ins ∧ ins.hasResult = true ∧ ins.result = v := by
  simp only [residents, holders, List.mem_append, List.mem_filterMap, resultOf?_eq_some_iff]

theorem mem_residents_of_result (hi : i ∈ f.inserted) (hv : f.resultOf? i = some v) :
    v ∈ f.residents :=
  List.mem_append_right _ (List.mem_filterMap.2 ⟨i, hi, hv⟩)

theorem nodup_residents (hcon : f.Coherent) : f.residents.Nodup := by
  refine List.nodup_append.2 ⟨nodup_params hcon.toNaming, ?_, fun v hv w hw hvw => ?_⟩
  · refine (nodup_inserted hcon).filterMap fun i j v hi hj => ?_
    have hvi := resultOf?_eq_some hcon.toNaming hi
    have hvj := resultOf?_eq_some hcon.toNaming hj
    cases hvi.symm.trans hvj
    rfl
  · obtain ⟨n, hn⟩ := List.getElem?_of_mem hv
    obtain ⟨t, ht⟩ := hcon.param_arg hn
    obtain ⟨i, -, hi⟩ := List.mem_filterMap.1 hw
    cases ht.symm.trans (hvw ▸ resultOf?_eq_some hcon.toNaming hi)

theorem isAlloca_iff :
    f.isAlloca i = true ↔ ∃ t e n a, f.opOf i = some (.alloca t e n a) := by
  unfold isAlloca
  split <;> simp_all

theorem nodup_allocas (hcon : f.Coherent) : f.allocas.Nodup := (nodup_inserted hcon).filter _

theorem holds_iff (hcon : f.Coherent) : f.Holds v r ↔ f.InRegister v ∧ r = f.regOf v := by
  constructor
  · rintro ⟨n, hn, rfl⟩
    obtain ⟨hlt, rfl⟩ := List.getElem?_eq_some_iff.1 hn
    have hmem : f.InRegister f.residents[n] := List.getElem_mem hlt
    refine ⟨hmem, ?_⟩
    rw [regOf_eq_virtual hmem]
    exact congrArg Reg.virtual ((nodup_residents hcon).idxOf_getElem n hlt).symm
  · rintro ⟨hmem, rfl⟩
    exact ⟨f.residents.idxOf v, List.getElem?_idxOf hmem, regOf_eq_virtual hmem⟩

/-- Registers belong to the arguments and the results of inserted instructions, one to each. -/
structure Numbered (f : Func) : Prop where
  exists_iff : ∀ v, (∃ r, f.Holds v r) ↔ v ∈ f.params ∨
    ∃ i ∈ f.inserted, ∃ ins, f.instrs[i]? = some ins ∧ ins.hasResult = true ∧ ins.result = v
  reg_unique : ∀ v r r', f.Holds v r → f.Holds v r' → r = r'
  value_unique : ∀ v w r, f.Holds v r → f.Holds w r → v = w
  nodup_allocas : f.allocas.Nodup

theorem numbered (hcon : f.Coherent) (hlength : f.residents.length ≤ Reg.reservedId) :
    f.Numbered := by
  refine ⟨fun v => ?_, fun v r r' hr hr' => ?_, ?_, nodup_allocas hcon⟩
  · rw [← mem_residents, List.mem_iff_getElem?]
    exact ⟨fun ⟨_, n, hn, _⟩ => ⟨n, hn⟩, fun ⟨n, hn⟩ => ⟨_, n, hn, rfl⟩⟩
  · rw [((holds_iff hcon).1 hr).2, ((holds_iff hcon).1 hr').2]
  · rintro v w r ⟨m, hm, rfl⟩ ⟨n, hn, hmn⟩
    have hbound : Reg.reservedId < 2 ^ 32 := by decide
    have hm' := (List.getElem?_eq_some_iff.1 hm).1
    have hn' := (List.getElem?_eq_some_iff.1 hn).1
    obtain rfl := (Reg.virtual_inj (by omega) (by omega)).1 hmn
    exact Option.some.inj (hm.symm.trans hn)

end Func

namespace Context

variable {f : Func} {types : TypeTable} {c c' : Context} {i : InstrId} {v : ValueId} {r : Reg}
  {s : SlotId} {t : TypeId}

/-! ### Answers of a context that was set up -/

theorem valueReg_eq_ok_iff : c.valueReg types v = .ok r ↔
    ∃ d, c.defs[v]? = some d ∧ d.reg.isValid = true ∧ d.reg = r := by
  simp only [valueReg, ite_eq_iff, Except.bind_eq_ok, liftFault_eq_ok, definition_eq_ok,
    Except.throw_ne_ok, Except.pure_eq_ok, and_false, exists_false, or_false]

theorem resultReg_eq_ok_iff : c.resultReg f i = .ok r ↔
    ∃ ins, f.instrs[i]? = some ins ∧ ins.hasResult = true ∧ ∃ d, c.defs[ins.result]? = some d ∧
      c.isProducer f i d = true ∧ d.reg = r := by
  simp only [resultReg, ite_eq_iff, Except.bind_eq_ok, liftFault_eq_ok, definition_eq_ok,
    Func.instr_eq_ok, Except.throw_ne_ok, Except.pure_eq_ok, false_and, and_false, exists_false,
    false_or, Bool.not_eq_true', Bool.not_eq_false]

theorem slotFor_eq_ok_iff : c.slotFor f i = .ok s ↔
    f.isAlloca i = true ∧ ∃ ins, f.instrs[i]? = some ins ∧ c.slot? ins.result = some s := by
  simp only [slotFor, Except.bind_eq_ok, liftFault_eq_ok, Func.instr_eq_ok, Func.isAlloca_iff]
  constructor
  · rintro ⟨ins, hins, h⟩
    have hop : f.opOf i = ins.op := by rw [Func.opOf, hins, Option.bind_some]
    split at h
    · next t e n a halloca =>
      refine ⟨⟨t, e, n, a, hop.trans halloca⟩, ins, hins, ?_⟩
      split at h
      · next hs => rwa [Except.pure_eq_ok.1 h] at hs
      · simp [Except.bind_eq_ok, Except.throw_ne_ok] at h
    · exact absurd h Except.throw_ne_ok
  · rintro ⟨⟨t, e, n, a, hop⟩, ins, hins, hs⟩
    rw [Func.opOf, hins, Option.bind_some] at hop
    refine ⟨ins, hins, ?_⟩
    simp [hop, hs, Except.pure_eq_ok]

namespace Ready

theorem length_residents (h : Ready f c) : f.residents.length ≤ Reg.reservedId :=
  h.size_regs ▸ h.bound

/-- A value lives in the register that its definition names, if that is one. -/
theorem valueReg (h : Ready f c) (hcon : f.Coherent) (hv : v < f.values.size) :
    c.valueReg types v = .ok r ↔ f.Holds v r := by
  obtain ⟨d, hd, -, -, -, hreg⟩ := h.definition (Array.getElem?_eq_getElem hv)
  have hreg : d.reg = f.regOf v := hreg
  have hvalid : d.reg.isValid = true ↔ f.InRegister v := by
    rw [hreg]
    by_cases hmem : f.InRegister v
    · rw [Func.regOf_eq_virtual hmem, Reg.isValid_virtual (h.idxOf_lt hmem)]
      exact iff_of_true rfl hmem
    · rw [Func.regOf_eq_invalid hmem]
      exact iff_of_false (by decide) hmem
  rw [valueReg_eq_ok_iff, Func.holds_iff hcon, ← hreg, ← hvalid]
  simp only [hd, Option.some.injEq, exists_eq_left', @eq_comm _ r]

/-- The register of an instruction is the one that its result lives in. -/
theorem resultReg (h : Ready f c) (hcon : f.Coherent) :
    c.resultReg f i = .ok r ↔ i ∈ f.inserted ∧ ∃ v, f.resultOf? i = some v ∧ f.Holds v r := by
  rw [resultReg_eq_ok_iff]
  simp only [Func.resultOf?_eq_some_iff]
  constructor
  · rintro ⟨ins, hins, hres, d, hd, hprod, rfl⟩
    obtain ⟨d', hd', -, hinstr, -, hreg⟩ := h.definition (hcon.result_value hins)
    obtain rfl := Option.some.inj (hd.symm.trans hd')
    have hprod : d.instr = some i ∧ c.owner = some f.index := by simpa [isProducer] using hprod
    have hi := (producerIn_eq_some.1 (hinstr.symm.trans hprod.1)).2
    exact ⟨hi, ins.result, ⟨ins, hins, hres, rfl⟩,
      (Func.holds_iff hcon).2 ⟨Func.inRegister_result hi hins hres, hreg⟩⟩
  · rintro ⟨hi, v, ⟨ins, hins, hres, rfl⟩, hv⟩
    obtain ⟨d, hd, -, hinstr, -, hreg⟩ := h.definition (hcon.result_value hins)
    refine ⟨ins, hins, hres, d, hd, ?_, hreg.trans ((Func.holds_iff hcon).1 hv).2.symm⟩
    simp [isProducer, h.owner, hinstr, Value.producerIn, hi]

/-- The address of a slot is the result of the instruction that reserves it. -/
theorem slot?_eq_some_iff (h : Ready f c) (hcon : f.Coherent) :
    c.slot? v = some s ↔
      ∃ i ins, f.allocas[s]? = some i ∧ f.instrs[i]? = some ins ∧ ins.result = v := by
  rw [h.slot]
  constructor
  · intro hs
    obtain ⟨i, hi, hs⟩ := Option.bind_eq_some_iff.1 hs
    obtain ⟨x, hx, hprod⟩ := Option.bind_eq_some_iff.1 hi
    obtain ⟨rfl, hmem⟩ := producerIn_eq_some.1 hprod
    obtain ⟨ins, hins, hv⟩ := hcon.value_result hx
    split at hs
    · next halloca =>
      obtain rfl := Option.some.inj hs
      exact ⟨i, ins, List.getElem?_idxOf (List.mem_filter.2 ⟨hmem, halloca⟩), hins, hv⟩
    · cases hs
  · rintro ⟨i, ins, hs, hins, rfl⟩
    obtain ⟨hlt, rfl⟩ := List.getElem?_eq_some_iff.1 hs
    obtain ⟨hi, halloca⟩ := List.mem_filter.1 (List.getElem_mem hlt)
    have hidx : (f.inserted.filter f.isAlloca).idxOf f.allocas[s] = s :=
      (Func.nodup_allocas hcon).idxOf_getElem s hlt
    simp [hcon.result_value hins, Value.producerIn, hi, halloca, hidx]

theorem slotFor (h : Ready f c) (hcon : f.Coherent) :
    c.slotFor f i = .ok s ↔ f.allocas[s]? = some i := by
  rw [slotFor_eq_ok_iff]
  constructor
  · rintro ⟨-, ins, hins, hs⟩
    obtain ⟨j, ins', hj, hins', hres⟩ := (h.slot?_eq_some_iff hcon).1 hs
    -- Two instructions with one result are the same.
    have hval := hcon.result_value hins'
    rw [hres, hcon.result_value hins] at hval
    cases hval
    exact hj
  · intro hi
    obtain ⟨hmem, halloca⟩ := List.mem_filter.1 (List.mem_of_getElem? hi)
    obtain ⟨t, e, n, a, hop⟩ := Func.isAlloca_iff.1 halloca
    obtain ⟨ins, hins, -⟩ := Option.bind_eq_some_iff.1 hop
    exact ⟨halloca, ins, hins, (h.slot?_eq_some_iff hcon).2 ⟨i, ins, hi, hins, rfl⟩⟩

end Ready

/-! ### Questions and replies -/

/-- A question to a context. -/
inductive Query where
  /-- A register that no value lives in. -/
  | newReg (t : TypeId)
  /-- The register of the result of an instruction, which is to have a type. -/
  | outputReg (i : InstrId) (t : TypeId)
  /-- The register of the result of an instruction. -/
  | resultReg (i : InstrId)
  /-- The register of a value. -/
  | valueReg (v : ValueId)
  /-- The slot that an instruction reserves. -/
  | slotFor (i : InstrId)
  /-- The slot whose address a value is. -/
  | slotOf (v : ValueId)
deriving DecidableEq, Repr

/-- A question is about a value or an instruction of a function. -/
def Query.Concerns (f : Func) : Query → Prop
  | .newReg _ => True
  | .outputReg i _ | .resultReg i | .slotFor i => i < f.instrs.size
  | .valueReg v | .slotOf v => v < f.values.size

instance (f : Func) : (q : Query) → Decidable (q.Concerns f)
  | .newReg _ => inferInstanceAs (Decidable True)
  | .outputReg i _ | .resultReg i | .slotFor i => inferInstanceAs (Decidable (i < f.instrs.size))
  | .valueReg v | .slotOf v => inferInstanceAs (Decidable (v < f.values.size))

/-- What comes back on a question. -/
inductive Reply where
  | reg (r : Reg)
  | slot (s : SlotId)
  /-- A value is not the address of a slot. -/
  | noSlot
  | stop (e : Stop)
deriving DecidableEq, Repr

/-- A register or the reason why there is none. -/
def Reply.ofReg : Except Stop Reg → Reply
  | .ok r => .reg r
  | .error e => .stop e

/-- A slot or the reason why there is none. -/
def Reply.ofSlot : Except Stop SlotId → Reply
  | .ok s => .slot s
  | .error e => .stop e

@[simp] theorem Reply.ofReg_eq_reg {x : Except Stop Reg} : Reply.ofReg x = .reg r ↔ x = .ok r := by
  cases x <;> simp [ofReg]

@[simp] theorem Reply.ofSlot_eq_slot {x : Except Stop SlotId} :
    Reply.ofSlot x = .slot s ↔ x = .ok s := by
  cases x <;> simp [ofSlot]

@[simp] theorem Reply.ofSlot_ne_reg {x : Except Stop SlotId} : Reply.ofSlot x ≠ .reg r := by
  cases x <;> simp [ofSlot]

@[simp] theorem Reply.elim_eq_slot {x : Option SlotId} :
    x.elim .noSlot .slot = Reply.slot s ↔ x = some s := by
  cases x <;> simp

@[simp] theorem Reply.elim_ne_reg {x : Option SlotId} : x.elim .noSlot .slot ≠ Reply.reg r := by
  cases x <;> simp

/-- Asks one question about a function. A question that stops leaves the context for the next one.
-/
def ask (types : TypeTable) (f : Func) (c : Context) : Query → Reply × Context
  | .newReg t =>
    match c.newReg t with
    | .ok (r, c') => (.reg r, c')
    | .error e => (.stop (.fault e), c)
  | .outputReg i t =>
    match (outputReg f i t).run c with
    | .ok r c' => (.reg r, c')
    | .error e c' => (.stop e, c')
  | .resultReg i => (.ofReg (c.resultReg f i), c)
  | .valueReg v => (.ofReg (c.valueReg types v), c)
  | .slotFor i => (.ofSlot (c.slotFor f i), c)
  | .slotOf v => ((c.slot? v).elim .noSlot .slot, c)

/-- Asks one question after the other. -/
def askAll (types : TypeTable) (f : Func) (c : Context) (qs : List Query) : List Reply × Context :=
  qs.foldl (fun (rs, c) q => (rs ++ [(c.ask types f q).1], (c.ask types f q).2)) ([], c)

theorem askAll_append {qs : List Query} {q : Query} : askAll types f c (qs ++ [q]) =
    ((askAll types f c qs).1 ++ [((askAll types f c qs).2.ask types f q).1],
      ((askAll types f c qs).2.ask types f q).2) := by
  rw [askAll, List.foldl_append]
  rfl

/-! ### The types that are asked for -/

/-- The type of a new register. -/
def Query.fresh? : Query → Option TypeId
  | .newReg t => some t
  | _ => none

/-- The type that the register of a value is to have. -/
def Query.request? (f : Func) (v : ValueId) : Query → Option TypeId
  | .outputReg i t => if i ∈ f.inserted ∧ f.resultOf? i = some v then some t else none
  | _ => none

/-- The types of the new registers that were given out: as many as there are numbers left. -/
def granted (f : Func) (qs : List Query) : List TypeId :=
  (qs.filterMap Query.fresh?).take (Reg.reservedId - f.residents.length)

/-- The type that was last asked for the register of a value. -/
def requested? (f : Func) (v : ValueId) (qs : List Query) : Option TypeId :=
  (qs.filterMap (Query.request? f v)).getLast?

/-! ### One question -/

/-- A new register has the next number, unless all numbers are taken. -/
theorem ask_newReg (types : TypeTable) (t : TypeId) (hfunc : c.func = some f) :
    (c.regs.types.size < Reg.reservedId ∧ c.ask types f (.newReg t) =
      (.reg (Reg.virtual c.regs.types.size), { c with regs := ⟨c.regs.types.push t⟩ })) ∨
    (Reg.reservedId ≤ c.regs.types.size ∧
      c.ask types f (.newReg t) = (.stop (.fault .tooManyRegisters), c)) := by
  by_cases hlt : c.regs.types.size < Reg.reservedId
  · refine .inl ⟨hlt, ?_⟩
    simp [ask, newReg, funcName, hfunc, RegTable.add, hlt, bind, Except.bind, pure, Except.pure]
  · refine .inr ⟨by omega, ?_⟩
    simp [ask, newReg, funcName, hfunc, RegTable.add, hlt, bind, Except.bind]

/-- The register of a result gets the type that is asked for. -/
theorem ask_outputReg_of_ok {n : Nat} (h : c.resultReg f i = .ok (Reg.virtual n))
    (hn : n < c.regs.types.size) (hbound : c.regs.types.size ≤ Reg.reservedId) :
    c.ask types f (.outputReg i t) =
      (.reg (Reg.virtual n), { c with regs := ⟨c.regs.types.setIfInBounds n t⟩ }) := by
  have hlt : n < 2 ^ 32 := hn.trans_le (hbound.trans (by decide))
  have htype : c.regs.type (Reg.virtual n) = c.regs.types[n] := by
    simp [RegTable.type, Reg.isReal_virtual hlt, Reg.id_virtual hlt, hn]
  by_cases ht : c.regs.types[n] = t
  · have hsame : c.regs.types.setIfInBounds n t = c.regs.types := by
      rw [← ht, Array.setIfInBounds, dif_pos hn, Array.set_getElem_self]
    simp [ask, outputReg, EStateM.run, bind, EStateM.bind, get, getThe, MonadStateOf.get,
      EStateM.get, h, htype, ht, hsame, pure, EStateM.pure]
  · simp [ask, outputReg, EStateM.run, bind, EStateM.bind, get, getThe, MonadStateOf.get,
      EStateM.get, h, htype, ht, RegTable.setType, Reg.id_virtual hlt, hn, set, EStateM.set, pure,
      EStateM.pure]

theorem ask_outputReg_of_error {e : Stop} (h : c.resultReg f i = .error e) :
    c.ask types f (.outputReg i t) = (.stop e, c) := by
  simp [ask, outputReg, EStateM.run, bind, EStateM.bind, get, getThe, MonadStateOf.get,
    EStateM.get, h, throw, throwThe, MonadExceptOf.throw, EStateM.throw]

section Records

variable {qs : List Query} {q : Query} {rs : List Reply}

theorem granted_append (h : q.fresh? = none) : granted f (qs ++ [q]) = granted f qs := by
  simp [granted, h]

/-- A new register is granted as long as there are numbers left. -/
theorem granted_append_newReg : granted f (qs ++ [.newReg t]) =
    if f.residents.length + (granted f qs).length < Reg.reservedId then granted f qs ++ [t]
    else granted f qs := by
  have hlength : (granted f qs).length =
      min (Reg.reservedId - f.residents.length) (qs.filterMap Query.fresh?).length := by
    rw [granted, List.length_take]
  have hfresh :
      (qs ++ [Query.newReg t]).filterMap Query.fresh? = qs.filterMap Query.fresh? ++ [t] := by
    simp [Query.fresh?]
  split
  · next hlt =>
    rw [granted, hfresh, granted, List.take_of_length_le, List.take_of_length_le]
    · omega
    · rw [List.length_append, List.length_singleton]
      omega
  · next hge => rw [granted, hfresh, List.take_append_of_le_length (by omega), granted]

theorem requested?_append :
    requested? f v (qs ++ [q]) = (q.request? f v).or (requested? f v qs) := by
  rw [requested?, List.filterMap_append, requested?]
  cases h : q.request? f v <;> simp [h]

/-! ### Any number of questions -/

/-- A context that was set up for a function, after some questions with some replies. -/
structure Asked (f : Func) (c : Context) (qs : List Query) (rs : List Reply) (c' : Context) :
    Prop where
  /-- Only the table of registers has changed. -/
  frame : ∃ regs, c' = { c with regs }
  size : c'.regs.types.size = f.residents.length + (granted f qs).length
  /-- The register of a value has the type that was last asked for, or the one of the value. -/
  held : ∀ {n : Nat} {v : ValueId}, f.residents[n]? = some v →
    ∃ t, f.valueType v = .ok t ∧ c'.regs.types[n]? = some ((requested? f v qs).getD t)
  /-- The new registers come after those of the values. -/
  new : ∀ k : Nat, c'.regs.types[f.residents.length + k]? = (granted f qs)[k]?
  /-- The registers in the replies are in the table. -/
  replies : ∀ r, .reg r ∈ rs → ∃ n < c'.regs.types.size, r = Reg.virtual n

theorem Ready.asked (h : Ready f c) : Asked f c [] [] c := by
  have hsize : c.regs.types.size = f.residents.length := h.size_regs
  refine ⟨⟨c.regs, rfl⟩, by simp [hsize, granted], fun {n v} hv => ?_, fun k => ?_, by simp⟩
  · obtain ⟨hlt, rfl⟩ := List.getElem?_eq_some_iff.1 hv
    have hlt' : n < c.regs.types.toList.length := by simpa [hsize] using hlt
    refine ⟨c.regs.types.toList[n], List.Forall₂.get h.regs hlt hlt', ?_⟩
    simp [requested?, hsize ▸ hlt]
  · simp [granted, hsize]

namespace Asked

theorem func (h : Asked f c qs rs c') (hr : Ready f c) : c'.func = some f := by
  obtain ⟨regs, rfl⟩ := h.frame
  exact hr.func

theorem bound (h : Asked f c qs rs c') (hr : Ready f c) :
    c'.regs.types.size ≤ Reg.reservedId := by
  have hle := hr.length_residents
  have hgranted : (granted f qs).length ≤ Reg.reservedId - f.residents.length :=
    List.length_take_le _ _
  rw [h.size]
  omega

/-- The registers and the slots of a function are the same after all questions. -/
theorem valueReg (h : Asked f c qs rs c') (hr : Ready f c) (hcon : f.Coherent)
    (hv : v < f.values.size) : c'.valueReg types v = .ok r ↔ f.Holds v r := by
  obtain ⟨regs, rfl⟩ := h.frame
  exact hr.valueReg hcon hv

theorem resultReg (h : Asked f c qs rs c') (hr : Ready f c) (hcon : f.Coherent) :
    c'.resultReg f i = .ok r ↔ i ∈ f.inserted ∧ ∃ v, f.resultOf? i = some v ∧ f.Holds v r := by
  obtain ⟨regs, rfl⟩ := h.frame
  exact hr.resultReg hcon

theorem slots (h : Asked f c qs rs c') (hr : Ready f c) :
    c'.slots.slots.size = f.allocas.length := by
  obtain ⟨regs, rfl⟩ := h.frame
  exact hr.slots

theorem slotFor (h : Asked f c qs rs c') (hr : Ready f c) (hcon : f.Coherent) :
    c'.slotFor f i = .ok s ↔ f.allocas[s]? = some i := by
  obtain ⟨regs, rfl⟩ := h.frame
  exact hr.slotFor hcon

theorem slot?_eq_some_iff (h : Asked f c qs rs c') (hr : Ready f c) (hcon : f.Coherent) :
    c'.slot? v = some s ↔
      ∃ i ins, f.allocas[s]? = some i ∧ f.instrs[i]? = some ins ∧ ins.result = v := by
  obtain ⟨regs, rfl⟩ := h.frame
  exact hr.slot?_eq_some_iff hcon

theorem holds_lt (h : Asked f c qs rs c') (hv : f.Holds v r) :
    ∃ n < c'.regs.types.size, r = Reg.virtual n := by
  obtain ⟨n, hn, rfl⟩ := hv
  have hlt := (List.getElem?_eq_some_iff.1 hn).1
  exact ⟨n, by rw [h.size]; omega, rfl⟩

/-- A question that changes no record. -/
theorem keep (h : Asked f c qs rs c') {reply : Reply}
    (hgranted : granted f (qs ++ [q]) = granted f qs)
    (hrequested : ∀ v, requested? f v (qs ++ [q]) = requested? f v qs)
    (hreply : ∀ r, reply = .reg r → ∃ n < c'.regs.types.size, r = Reg.virtual n) :
    Asked f c (qs ++ [q]) (rs ++ [reply]) c' := by
  refine ⟨h.frame, hgranted ▸ h.size, fun hv => hrequested _ ▸ h.held hv,
    fun k => hgranted ▸ h.new k, fun r hr => ?_⟩
  rcases List.mem_append.1 hr with hr | hr
  · exact h.replies r hr
  · exact hreply r (List.mem_singleton.1 hr).symm

theorem newReg (h : Asked f c qs rs c') (hr : Ready f c) (t : TypeId) :
    Asked f c (qs ++ [.newReg t]) (rs ++ [(c'.ask types f (.newReg t)).1])
      (c'.ask types f (.newReg t)).2 := by
  have hrequested v : requested? f v (qs ++ [.newReg t]) = requested? f v qs := by
    rw [requested?_append]
    rfl
  obtain ⟨hlt, hask⟩ | ⟨hge, hask⟩ := ask_newReg types t (h.func hr)
  · have hgranted : granted f (qs ++ [.newReg t]) = granted f qs ++ [t] := by
      rw [granted_append_newReg, if_pos (h.size ▸ hlt)]
    rw [hask]
    refine ⟨?_, ?_, fun {n v} hv => ?_, fun k => ?_, fun r hr => ?_⟩
    · obtain ⟨regs, rfl⟩ := h.frame
      exact ⟨_, rfl⟩
    · simp [hgranted, h.size, Nat.add_assoc]
    · obtain ⟨ty, hty, hget⟩ := h.held hv
      have hn := (Array.getElem?_eq_some_iff.1 hget).1
      refine ⟨ty, hty, ?_⟩
      rw [hrequested, Array.getElem?_push, if_neg (Nat.ne_of_lt hn), hget]
    · rw [hgranted, Array.getElem?_push, h.new, h.size, List.getElem?_append]
      grind
    · rcases List.mem_append.1 hr with hr | hr
      · obtain ⟨n, hn, rfl⟩ := h.replies r hr
        exact ⟨n, by simp; omega, rfl⟩
      · cases List.mem_singleton.1 hr
        exact ⟨_, by simp, rfl⟩
  · rw [hask]
    refine h.keep ?_ hrequested (by simp)
    rw [granted_append_newReg, if_neg (by rw [← h.size]; omega)]

theorem outputReg (h : Asked f c qs rs c') (hr : Ready f c) (hcon : f.Coherent) (i : InstrId)
    (t : TypeId) :
    Asked f c (qs ++ [.outputReg i t]) (rs ++ [(c'.ask types f (.outputReg i t)).1])
      (c'.ask types f (.outputReg i t)).2 := by
  have hgranted : granted f (qs ++ [.outputReg i t]) = granted f qs := granted_append rfl
  have hrequested v : requested? f v (qs ++ [.outputReg i t]) =
      if i ∈ f.inserted ∧ f.resultOf? i = some v then some t else requested? f v qs := by
    rw [requested?_append, Query.request?]
    split <;> rfl
  cases hres : c'.resultReg f i with
  | error e =>
    rw [ask_outputReg_of_error hres]
    refine h.keep hgranted (fun v => ?_) (by simp)
    rw [hrequested, if_neg]
    rintro ⟨hi, hv⟩
    -- The result would have a register, and the question would not stop.
    have hmem : v ∈ f.residents := Func.mem_residents_of_result hi hv
    obtain ⟨n, hn⟩ := List.getElem?_of_mem hmem
    have hok := (h.resultReg hr hcon).2 ⟨hi, v, hv, n, hn, rfl⟩
    rw [hres] at hok
    cases hok
  | ok r =>
    obtain ⟨hi, v, hv, n, hn, rfl⟩ := (h.resultReg hr hcon).1 hres
    have hlt : n < c'.regs.types.size := by
      rw [h.size]
      exact Nat.lt_add_right _ (List.getElem?_eq_some_iff.1 hn).1
    rw [ask_outputReg_of_ok hres hlt (h.bound hr)]
    refine ⟨?_, by simp [hgranted, h.size], fun {m w} hw => ?_, fun k => ?_, fun r hr => ?_⟩
    · obtain ⟨regs, rfl⟩ := h.frame
      exact ⟨_, rfl⟩
    · obtain ⟨ty, hty, hget⟩ := h.held hw
      refine ⟨ty, hty, ?_⟩
      rw [hrequested]
      by_cases hmn : n = m
      · subst hmn
        obtain rfl := Option.some.inj (hn.symm.trans hw)
        simp [hi, hv, hlt]
      · have hvw : v ≠ w := by
          rintro rfl
          have hlt := (List.getElem?_eq_some_iff.1 hn).1
          exact hmn ((List.getElem?_inj hlt (Func.nodup_residents hcon)).1 (hn.trans hw.symm))
        rw [Array.getElem?_setIfInBounds_ne hmn, hget, if_neg]
        rintro ⟨-, hw⟩
        exact hvw (Option.some.inj (hv.symm.trans hw))
    · have hne : n ≠ f.residents.length + k := by
        have hn := (List.getElem?_eq_some_iff.1 hn).1
        omega
      rw [hgranted, Array.getElem?_setIfInBounds_ne hne, h.new]
    · rw [Array.size_setIfInBounds]
      rcases List.mem_append.1 hr with hr | hr
      · exact h.replies r hr
      · cases List.mem_singleton.1 hr
        exact ⟨n, hlt, rfl⟩

/-- What one question changes. -/
theorem ask (h : Asked f c qs rs c') (hr : Ready f c) (hcon : f.Coherent) (hq : q.Concerns f) :
    Asked f c (qs ++ [q]) (rs ++ [(c'.ask types f q).1]) (c'.ask types f q).2 := by
  have hkeep (hfresh : q.fresh? = none) (hrequest : ∀ v, q.request? f v = none) {reply : Reply}
      (hreply : ∀ r, reply = .reg r → ∃ v, f.Holds v r) :
      Asked f c (qs ++ [q]) (rs ++ [reply]) c' := by
    refine h.keep (granted_append hfresh) (fun v => ?_) fun r hrep => ?_
    · rw [requested?_append, hrequest, Option.none_or]
    · obtain ⟨v, hv⟩ := hreply r hrep
      exact h.holds_lt hv
  cases q with
  | newReg t => exact h.newReg hr t
  | outputReg i t => exact h.outputReg hr hcon i t
  | resultReg i =>
    refine hkeep rfl (fun _ => rfl) fun r hrep => ?_
    obtain ⟨-, v, -, hv⟩ := (h.resultReg hr hcon).1 (Reply.ofReg_eq_reg.1 hrep)
    exact ⟨v, hv⟩
  | valueReg v =>
    exact hkeep rfl (fun _ => rfl) fun r hrep =>
      ⟨v, (h.valueReg hr hcon hq).1 (Reply.ofReg_eq_reg.1 hrep)⟩
  | slotFor i => exact hkeep rfl (fun _ => rfl) fun r hrep => absurd hrep Reply.ofSlot_ne_reg
  | slotOf v => exact hkeep rfl (fun _ => rfl) fun r hrep => absurd hrep Reply.elim_ne_reg

end Asked

/-- What any number of questions change. -/
theorem Ready.askAll (types : TypeTable) (hr : Ready f c) (hcon : f.Coherent)
    (hqs : ∀ q ∈ qs, q.Concerns f) :
    Asked f c qs (askAll types f c qs).1 (askAll types f c qs).2 := by
  induction qs using List.reverseRecOn with
  | nil => exact hr.asked
  | append_singleton qs q ih =>
    rw [askAll_append]
    exact (ih fun q hq => hqs q (List.mem_append_left _ hq)).ask hr hcon (hqs q (by simp))

end Records

/-! ### What comes back on the next question -/

/-- The reply to a question that is asked after others. -/
def replyAfter (types : TypeTable) (f : Func) (c : Context) (qs : List Query) (q : Query) : Reply :=
  ((askAll types f c qs).2.ask types f q).1

/-- The replies of a context `c` that was set up for a function, after some questions. -/
structure Steady (types : TypeTable) (f : Func) (c : Context) (qs : List Query) : Prop where
  /-- A value is in the register that it lives in. -/
  valueReg : ∀ v r, v < f.values.size →
    (replyAfter types f c qs (.valueReg v) = .reg r ↔ f.Holds v r)
  /-- The result of an inserted instruction is in the register that it lives in. -/
  resultReg : ∀ i r, replyAfter types f c qs (.resultReg i) = .reg r ↔
    i ∈ f.inserted ∧ ∃ v, f.resultOf? i = some v ∧ f.Holds v r
  /-- That register is the same whatever type it is to have. -/
  outputReg : ∀ i t r, replyAfter types f c qs (.outputReg i t) = .reg r ↔
    i ∈ f.inserted ∧ ∃ v, f.resultOf? i = some v ∧ f.Holds v r
  /-- A new register has the next number, as long as there is one. -/
  newReg : ∀ t r, replyAfter types f c qs (.newReg t) = .reg r ↔
    f.residents.length + (granted f qs).length < Reg.reservedId ∧
      r = Reg.virtual (f.residents.length + (granted f qs).length)
  /-- No value lives in a new register, and no reply before named it. -/
  fresh : ∀ t r, replyAfter types f c qs (.newReg t) = .reg r →
    (∀ v, ¬f.Holds v r) ∧ .reg r ∉ (askAll types f c qs).1
  /-- The register of a value has the type that was last asked for, or the one of the value. -/
  heldType : ∀ v r, f.Holds v r → ∃ t, f.valueType v = .ok t ∧
    (askAll types f c qs).2.regType r = .ok ((requested? f v qs).getD t)
  /-- A new register has the type that it was asked for with. -/
  newType : ∀ (k : Nat) t, (granted f qs)[k]? = some t →
    (askAll types f c qs).2.regType (Reg.virtual (f.residents.length + k)) = .ok t
  /-- There is one slot for each instruction that reserves one, in layout order. -/
  slots : (askAll types f c qs).2.slots.slots.size = f.allocas.length
  slotFor : ∀ i (s : SlotId), replyAfter types f c qs (.slotFor i) = .slot s ↔
    f.allocas[s]? = some i
  /-- The results of these instructions are the addresses of the slots. -/
  slotOf : ∀ v (s : SlotId), replyAfter types f c qs (.slotOf v) = .slot s ↔
    ∃ i ins, f.allocas[s]? = some i ∧ f.instrs[i]? = some ins ∧ ins.result = v

theorem regType_virtual (hfunc : c.func = some f) {n : Nat} (hn : n < 2 ^ 32)
    (ht : c.regs.types[n]? = some t) : c.regType (Reg.virtual n) = .ok t := by
  simp [regType, hfunc, RegTable.type, Reg.isReal_virtual hn, Reg.id_virtual hn, ht]

theorem ask_newReg_eq_reg (types : TypeTable) (t : TypeId) (r : Reg) (hfunc : c.func = some f) :
    (c.ask types f (.newReg t)).1 = .reg r ↔
      c.regs.types.size < Reg.reservedId ∧ r = Reg.virtual c.regs.types.size := by
  obtain ⟨hlt, hask⟩ | ⟨hge, hask⟩ := ask_newReg types t hfunc
  · simp [hask, hlt, eq_comm]
  · simp [hask, Nat.not_lt.2 hge]

theorem Asked.outputReg_eq_reg {qs : List Query} {rs : List Reply} (h : Asked f c qs rs c')
    (hr : Ready f c) (hcon : f.Coherent) :
    (c'.ask types f (.outputReg i t)).1 = .reg r ↔ c'.resultReg f i = .ok r := by
  cases hres : c'.resultReg f i with
  | error e => simp [ask_outputReg_of_error hres]
  | ok r' =>
    obtain ⟨-, v, -, hv⟩ := (h.resultReg hr hcon).1 hres
    obtain ⟨n, hn, rfl⟩ := h.holds_lt hv
    simp [ask_outputReg_of_ok hres hn (h.bound hr)]

theorem Ready.steady (hr : Ready f c) (hcon : f.Coherent) {qs : List Query}
    (hqs : ∀ q ∈ qs, q.Concerns f) : Steady types f c qs := by
  have h := hr.askAll types hcon hqs
  have hbound := h.bound hr
  have hfunc := h.func hr
  have hnew t r := ask_newReg_eq_reg types t r hfunc
  exact {
    valueReg := fun v r hv => Reply.ofReg_eq_reg.trans (h.valueReg hr hcon hv)
    resultReg := fun i r => Reply.ofReg_eq_reg.trans (h.resultReg hr hcon)
    outputReg := fun i t r => (h.outputReg_eq_reg hr hcon).trans (h.resultReg hr hcon)
    newReg := fun t r => h.size ▸ hnew t r
    fresh := by
      intro t r hrep
      obtain ⟨hlt, rfl⟩ := (hnew t r).1 hrep
      exact ⟨fun v hv => Reg.ne_virtual_of_lt hlt (h.holds_lt hv) rfl,
        fun hmem => Reg.ne_virtual_of_lt hlt (h.replies _ hmem) rfl⟩
    heldType := by
      rintro v r ⟨n, hn, rfl⟩
      obtain ⟨t, ht, hget⟩ := h.held hn
      have hlt := (Array.getElem?_eq_some_iff.1 hget).1
      exact ⟨t, ht, regType_virtual hfunc (hlt.trans_le (hbound.trans (by decide))) hget⟩
    newType := by
      intro k t ht
      have hget := (h.new k).trans ht
      have hlt := (Array.getElem?_eq_some_iff.1 hget).1
      exact regType_virtual hfunc (hlt.trans_le (hbound.trans (by decide))) hget
    slots := h.slots hr
    slotFor := fun i s => Reply.ofSlot_eq_slot.trans (h.slotFor hr hcon)
    slotOf := fun v s => Reply.elim_eq_slot.trans (h.slot?_eq_some_iff hr hcon) }

/-- The registers and the slots of a function stay the same under all questions, once a context is
set up for it. That stops only if the function has more values than there are registers. -/
theorem init_steady (hf : f.Drafted) (ho : f.OperandsExist) (c₀ : Context) :
    (f.residents.length ≤ Reg.reservedId ∧ f.Numbered ∧ ∃ c, (init f).run c₀ = .ok () c ∧
      ∀ types qs, (∀ q ∈ qs, q.Concerns f) → Steady types f c qs) ∨
    (Reg.reservedId < f.residents.length ∧ ∃ c, (init f).run c₀ = .error .tooManyRegisters c) := by
  have hcon := hf.coherent
  cases hinit : (init f).run c₀ with
  | ok u c =>
    have hr := ready_of_init hcon hinit
    exact .inl ⟨hr.length_residents, Func.numbered hcon hr.length_residents, c, rfl,
      fun types qs hqs => hr.steady hcon hqs⟩
  | error e c =>
    obtain ⟨hlt, rfl⟩ := init_eq_error hcon ho hinit
    exact .inr ⟨hlt, c, rfl⟩

/-- A function with an addition that is in none of its blocks. -/
def loose : Func :=
  match Func.sample.addInstr.2.setOperation 14 (.binary .add 2 1 3) with
  | .ok f => f
  | .error _ => Func.sample

theorem drafted_loose : loose.Drafted := by
  unfold loose
  cases hset : Func.sample.addInstr.2.setOperation 14 (.binary .add 2 1 3) with
  | ok f => exact .setOperation (.addInstr Func.built_sample.drafted) hset
  | error e => exact Func.built_sample.drafted

/-- Two types for the register of one result, with a new register in between. -/
def retypes : List Query := [.outputReg 7 4, .newReg 3, .outputReg 7 3]

/-- The register stays the same and has the second type. The addition that is in no block has none.
-/
theorem init_steady_loose :
    loose.Drafted ∧ loose.OperandsExist ∧ ∃ c, (init loose).run {} = .ok () c ∧
      replyAfter Func.sampleTypes loose c retypes (.valueReg 11) = .reg (Reg.virtual 5) ∧
      replyAfter Func.sampleTypes loose c retypes (.newReg 2) = .reg (Reg.virtual 9) ∧
      (askAll Func.sampleTypes loose c retypes).2.regType (Reg.virtual 5) = .ok 3 ∧
      (∀ r, replyAfter Func.sampleTypes loose c retypes (.resultReg 14) ≠ .reg r) ∧
      replyAfter Func.sampleTypes loose c retypes (.slotOf 4) = .slot 0 := by
  have hexist : loose.OperandsExist := by decide +kernel
  have hresidents : loose.residents = [1, 4, 7, 8, 10, 11, 13, 15] := by decide +kernel
  have hallocas : loose.allocas = [0] := by decide +kernel
  have hfirst : loose.instrs[0]?.map (·.result) = some 4 := by decide +kernel
  have hholds : loose.Holds 11 (Reg.virtual 5) := ⟨5, by rw [hresidents]; rfl, rfl⟩
  refine ⟨drafted_loose, hexist, ?_⟩
  obtain ⟨-, -, c, hinit, hsteady⟩ | ⟨hfull, -⟩ := init_steady drafted_loose hexist {}
  · have h := hsteady Func.sampleTypes retypes (by decide +kernel)
    refine ⟨c, hinit, (h.valueReg 11 _ (by decide +kernel)).2 hholds, ?_, ?_, fun r hr => ?_, ?_⟩
    · rw [h.newReg, hresidents]
      decide +kernel
    · obtain ⟨t, -, ht⟩ := h.heldType 11 _ hholds
      have hlast : requested? loose 11 retypes = some 3 := by decide +kernel
      rw [hlast] at ht
      exact ht
    · exact absurd ((h.resultReg 14 r).1 hr).1 (by decide +kernel)
    · obtain ⟨ins, hins, hresult⟩ := Option.map_eq_some_iff.1 hfirst
      exact (h.slotOf 4 0).2 ⟨0, ins, by rw [hallocas]; rfl, hins, hresult⟩
  · rw [hresidents] at hfull
    exact absurd hfull (by decide)

end Context

end Codegen
