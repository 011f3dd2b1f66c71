import Codegen.Context
import Codegen.Proofs.WellFormed

/-!
# Registers, slots and labels

Setting a context up for a function gives registers to the arguments and then to the results of the
inserted instructions in layout order, and slots to the instructions that reserve a piece of the
stack. The registers are numbered in this order, so the number of the register of a value is the
position of the value in the list of those that have one, and different values have different
registers.

## Main definitions

* `Func.holders`: the values that live in registers, in the order of their registers.
* `Func.slotOf`: the slot that an instruction reserves.
* `Context.Assigned`, `Context.Ready`: a context with some assignments, and with all of a function.

## Main results

* `Func.operandsExist_of_users`, `Func.records_of_users`: the uses of a function are collected.
* `Context.ready_of_init`: a context that was set up holds the assignments.
-/

namespace Codegen

/-! ### Uses -/

namespace Except

variable {ε α β : Type}

/-- What a step does for its element and all later steps keep, a fold does for every element. -/
theorem foldlM_forall {g : β → α → Except ε β} (P : α → β → Prop)
    (step : ∀ b a b', g b a = .ok b' → P a b')
    (keep : ∀ a b a' b', P a b → g b a' = .ok b' → P a b') {l : List α} {b b' : β}
    (h : l.foldlM g b = .ok b') : ∀ a ∈ l, P a b' := by
  induction l generalizing b with
  | nil => simp
  | cons a l ih =>
    rw [List.foldlM_cons, bind_eq_ok] at h
    obtain ⟨c, hc, h⟩ := h
    refine List.forall_mem_cons.2 ⟨?_, ih h⟩
    exact foldlM_induction (P a) (fun b a' b' _ hb hb' => keep a b a' b' hb hb') (step b a c hc) h

/-- An invariant of a fold that knows the elements that were folded so far. -/
theorem foldlM_processed {g : β → α → Except ε β} (I : List α → β → Prop) {l : List α}
    (step : ∀ before a after b b', l = before ++ a :: after → I before b → g b a = .ok b' →
      I (before ++ [a]) b') {b b' : β} (hb : I [] b) (h : l.foldlM g b = .ok b') : I l b' := by
  suffices hgen : ∀ before after b, l = before ++ after → I before b →
      after.foldlM g b = .ok b' → I l b' from hgen [] l b rfl hb h
  intro before after
  induction after generalizing before with
  | nil =>
    intro b hl hb h
    obtain rfl := pure_eq_ok.1 h
    rwa [hl, List.append_nil]
  | cons a after ih =>
    intro b hl hb h
    rw [List.foldlM_cons, bind_eq_ok] at h
    obtain ⟨c, hc, h⟩ := h
    exact ih (before ++ [a]) c (by simpa using hl) (step before a after b c hl hb hc) h

end Except

namespace Func

variable {f : Func} {i j : InstrId} {v w : ValueId}

theorem recordUse_eq_ok {us us' : Array (List InstrId)} :
    recordUse i us v = .ok us' ↔ ∃ l, us[v]? = some l ∧ us' = us.setIfInBounds v (l ++ [i]) := by
  unfold recordUse
  cases us[v]? with
  | none => simp
  | some l => simp [eq_comm]

/-- Whether an instruction is recorded as a user of a value. -/
def Records (us : Array (List InstrId)) (i : InstrId) (v : ValueId) : Prop :=
  ∃ l, us[v]? = some l ∧ i ∈ l

theorem Records.recordUse {us us' : Array (List InstrId)} (h : Records us i v)
    (hu : recordUse j us w = .ok us') : Records us' i v := by
  obtain ⟨l, hl, hi⟩ := h
  obtain ⟨l', hl', rfl⟩ := recordUse_eq_ok.1 hu
  by_cases hvw : w = v
  · subst hvw
    obtain rfl := Option.some.inj (hl.symm.trans hl')
    have hlt := (Array.getElem?_eq_some_iff.1 hl).1
    exact ⟨l ++ [j], by simp [hlt], List.mem_append_left _ hi⟩
  · exact ⟨l, by rw [Array.getElem?_setIfInBounds_ne hvw, hl], hi⟩

theorem records_of_recordUse {us us' : Array (List InstrId)} (hu : recordUse i us v = .ok us') :
    Records us' i v := by
  obtain ⟨l, hl, rfl⟩ := recordUse_eq_ok.1 hu
  have hlt := (Array.getElem?_eq_some_iff.1 hl).1
  exact ⟨l ++ [i], by simp [hlt], by simp⟩

/-- Recording the operands of one instruction. -/
theorem recordUses_eq_ok {us us' : Array (List InstrId)} (h : f.recordUses us i = .ok us') :
    ∃ ins args, f.instr i = .ok ins ∧ ins.args = .ok args ∧
      args.foldlM (recordUse i) us = .ok us' := by
  simp only [recordUses, Except.bind_eq_ok] at h
  obtain ⟨ins, hins, args, hargs, h⟩ := h
  exact ⟨ins, args, hins, hargs, h⟩

/-- Every operand of an inserted instruction is recorded. -/
theorem records_of_users {us : Array (List InstrId)} (h : f.users = .ok us) {op : Operation}
    (hi : i ∈ f.inserted) (hop : f.opOf i = some op) (hv : v ∈ op.args) : Records us i v := by
  refine Except.foldlM_forall (fun i us => ∀ op, f.opOf i = some op → ∀ v ∈ op.args,
    Records us i v) ?_ ?_ h i hi op hop v hv
  · intro us j us' hj op hop v hv
    obtain ⟨ins, args, hins, hargs, hfold⟩ := recordUses_eq_ok hj
    obtain rfl : args = op.args := by
      rw [opOf, instr_eq_ok.1 hins, Option.bind_some] at hop
      simpa [Instr.args, hop] using hargs.symm
    exact Except.foldlM_forall (fun v us => Records us j v) (fun _ _ _ => records_of_recordUse)
      (fun _ _ _ _ => Records.recordUse) hfold v hv
  · intro j us k us' hrec hk op hop v hv
    obtain ⟨ins, args, -, -, hfold⟩ := recordUses_eq_ok hk
    exact Except.foldlM_induction (fun us => Records us j v) (fun _ _ _ _ => Records.recordUse)
      (hrec op hop v hv) hfold

theorem size_foldlM_recordUse {us us' : Array (List InstrId)} {args : List ValueId}
    (h : args.foldlM (recordUse i) us = .ok us') : us'.size = us.size := by
  refine Except.foldlM_induction (fun us' => us'.size = us.size) ?_ rfl h
  intro us v us' _ hsize hv
  obtain ⟨l, -, rfl⟩ := recordUse_eq_ok.1 hv
  simpa using hsize

theorem size_foldlM_recordUses {us us' : Array (List InstrId)} {is : List InstrId}
    (h : is.foldlM f.recordUses us = .ok us') : us'.size = us.size := by
  refine Except.foldlM_induction (fun us' => us'.size = us.size) ?_ rfl h
  intro us j us' _ hsize hj
  obtain ⟨ins, args, -, -, hfold⟩ := recordUses_eq_ok hj
  rw [size_foldlM_recordUse hfold, hsize]

theorem size_users {us : Array (List InstrId)} (h : f.users = .ok us) :
    us.size = f.values.size := by
  simpa using size_foldlM_recordUses h

/-- Uses can be collected only if the operands exist. -/
theorem operandsExist_of_users {us : Array (List InstrId)} (h : f.users = .ok us) :
    f.OperandsExist := by
  intro i hi op hop v hv
  obtain ⟨l, hl, -⟩ := records_of_users h hi hop hv
  exact size_users h ▸ (Array.getElem?_eq_some_iff.1 hl).1

/-! ### The order of registers and slots -/

/-- The result of an instruction, if there is one. -/
def resultOf? (f : Func) (i : InstrId) : Option ValueId :=
  f.instrs[i]?.bind fun ins => if ins.hasResult then some ins.result else none

/-- The values that live in registers when some arguments and instructions have got theirs. -/
def holders (f : Func) (args : List ValueId) (is : List InstrId) : List ValueId :=
  args ++ is.filterMap f.resultOf?

/-- Whether an instruction reserves a piece of the stack. -/
def isAlloca (f : Func) (i : InstrId) : Bool :=
  match f.opOf i with
  | some (.alloca _ _ _ _) => true
  | _ => false

/-- The slot that an instruction reserves: slots are numbered in layout order. -/
def slotOf (f : Func) (i : InstrId) : SlotId := (f.inserted.filter f.isAlloca).idxOf i

theorem nodup_inserted (hc : f.Coherent) : f.inserted.Nodup := by
  rw [inserted, List.nodup_flatMap]
  constructor
  · intro blk hblk
    obtain ⟨b, hb, rfl⟩ := Array.getElem_of_mem (Array.mem_toList_iff.1 hblk)
    rw [← instrs_eq_instrsOf (Array.getElem?_eq_getElem hb)]
    exact hc.nodup_instrsOf b
  · rw [List.pairwise_iff_getElem]
    intro b c hb hc' hbc i hib hic
    have hget {b : Nat} (hb : b < f.blocks.toList.length) :
        f.instrsOf b = f.blocks.toList[b].instrs :=
      instrs_eq_instrsOf (Array.getElem?_eq_getElem (by simpa using hb))
    have hib : f.blockOf i = some b := hc.mem_instrsOf.1 ((hget hb).symm ▸ hib)
    have hic : f.blockOf i = some c := hc.mem_instrsOf.1 ((hget hc').symm ▸ hic)
    exact Nat.ne_of_lt hbc (Option.some.inj (hib.symm.trans hic))

theorem nodup_params (hn : f.Naming) : f.params.Nodup := by
  rw [List.nodup_iff_getElem?_ne_getElem?]
  intro m n hmn hn' he
  obtain ⟨v, hv⟩ : ∃ v, f.params[n]? = some v := ⟨_, List.getElem?_eq_getElem hn'⟩
  obtain ⟨t, ht⟩ := hn.param_arg hv
  obtain ⟨t', ht'⟩ := hn.param_arg (he.trans hv)
  rw [ht] at ht'
  cases ht'
  exact Nat.lt_irrefl _ hmn

theorem valueType_result (hn : f.Naming) {ins : Instr} (hins : f.instrs[i]? = some ins) :
    f.valueType ins.result = .ok ins.type := by
  simp [valueType, value_eq_ok.2 (hn.result_value hins), instr_eq_ok.2 hins, bind, Except.bind,
    pure, Except.pure]

theorem valueType_arg {n : Nat} {t : TypeId} (hv : f.values[v]? = some (.arg n t)) :
    f.valueType v = .ok t := by
  simp [valueType, value_eq_ok.2 hv, bind, Except.bind, pure, Except.pure]

theorem valueType_const {payload : Int64} {t : TypeId}
    (hv : f.values[v]? = some (.const payload t)) : f.valueType v = .ok t := by
  simp [valueType, value_eq_ok.2 hv, bind, Except.bind, pure, Except.pure]

theorem resultOf?_eq_some (hn : f.Naming) (h : f.resultOf? i = some v) :
    f.values[v]? = some (.result i) := by
  obtain ⟨ins, hins, h⟩ := Option.bind_eq_some_iff.1 h
  split at h
  · cases h
    exact hn.result_value hins
  · cases h

end Func

/-- The instruction among some that produces a value. -/
def Value.producerIn (is : List InstrId) : Value → Option InstrId
  | .result i => if i ∈ is then some i else none
  | _ => none

/-- The position of a value among some that are arguments. -/
def Value.positionIn (args : List ValueId) (v : ValueId) : Value → Option Nat
  | .arg n _ => if v ∈ args then some n else none
  | _ => none

/-- The register of a value: its position among the values that live in registers. -/
def Reg.ofHolder (holders : List ValueId) (v : ValueId) : Reg :=
  if v ∈ holders then Reg.virtual (holders.idxOf v) else Reg.invalid

namespace Context

variable {f : Func} {c c' : Context} {i : InstrId} {v w : ValueId}

theorem definition_eq_ok {d : Definition} : c.definition v = .ok d ↔ c.defs[v]? = some d := by
  unfold definition
  cases c.defs[v]? <;> simp

/-! ### One assignment -/

theorem getElem?_defs_updateDef (g : Definition → Definition) :
    (c.updateDef v g).defs[w]? = if w = v then c.defs[v]?.map g else c.defs[w]? := by
  unfold updateDef
  split
  · next d h => grind
  · next h => grind

@[simp] theorem regs_updateDef (g : Definition → Definition) :
    (c.updateDef v g).regs = c.regs := by
  unfold updateDef
  split <;> rfl

@[simp] theorem slots_updateDef (g : Definition → Definition) :
    (c.updateDef v g).slots = c.slots := by
  unfold updateDef
  split <;> rfl

@[simp] theorem slotOf_updateDef (g : Definition → Definition) :
    (c.updateDef v g).slotOf = c.slotOf := by
  unfold updateDef
  split <;> rfl

/-- A context with the assignments of some arguments and some instructions. -/
structure Assigned (f : Func) (args : List ValueId) (is : List InstrId) (c : Context) : Prop where
  /-- The registers have the types of the values that live in them. -/
  regs : List.Forall₂ (fun v t => f.valueType v = .ok t) (f.holders args is) c.regs.types.toList
  /-- There are not too many registers. -/
  bound : c.regs.types.size ≤ Reg.reservedId
  /-- Every value has a definition. -/
  definition : ∀ {v x}, f.values[v]? = some x → ∃ d, c.defs[v]? = some d ∧ d.payload = x.payload ∧
    d.instr = x.producerIn is ∧ d.arg = x.positionIn args v ∧
    d.reg = Reg.ofHolder (f.holders args is) v
  /-- Slots are numbered in the order of the instructions that reserve them. -/
  slots : c.slots.slots.size = (is.filter f.isAlloca).length
  slotSize : c.slotOf.size = f.values.size
  /-- The results of these instructions stand for their slots. -/
  slot : ∀ v, c.slot? v = (f.values[v]?.bind (·.producerIn is)).bind fun i =>
    if f.isAlloca i then some ((is.filter f.isAlloca).idxOf i) else none

theorem add_eq_ok {t : RegTable} {type : TypeId} {r : Reg} {t' : RegTable} :
    t.add type = .ok (r, t') ↔
      t.types.size < Reg.reservedId ∧ r = Reg.virtual t.types.size ∧
        t'.types = t.types.push type := by
  unfold RegTable.add
  split
  · next h =>
    obtain ⟨types⟩ := t'
    simp [h, eq_comm]
  · next h => simp [h]

theorem ofHolder_append {holders : List ValueId} (hv : v ∉ holders) :
    Reg.ofHolder (holders ++ [v]) w =
      if w = v then Reg.virtual holders.length else Reg.ofHolder holders w := by
  unfold Reg.ofHolder
  by_cases hwv : w = v
  · subst hwv
    simp [List.idxOf_append_of_notMem hv]
  · by_cases hw : w ∈ holders
    · simp [hwv, hw, List.idxOf_append_of_mem hw]
    · simp [hwv, hw]

theorem Assigned.size_regs {args : List ValueId} {is : List InstrId} (h : Assigned f args is c) :
    c.regs.types.size = (f.holders args is).length := by
  rw [← Array.length_toList, h.regs.length_eq]

/-- Giving an argument its register. -/
theorem Assigned.assignArg {args : List ValueId} {n : Nat} {t : TypeId} (h : Assigned f args [] c)
    (hv : v ∉ args) (hval : f.values[v]? = some (.arg n t))
    (hc : assignArg f c (n, v) = .ok c') : Assigned f (args ++ [v]) [] c' := by
  simp only [Context.assignArg, Except.bind_eq_ok, Except.pure_eq_ok] at hc
  obtain ⟨t', ht', ⟨r, regs⟩, hadd, rfl⟩ := hc
  obtain ⟨hlt, rfl, hregs⟩ := add_eq_ok.1 hadd
  have hold : f.holders (args ++ [v]) [] = f.holders args [] ++ [v] := by simp [Func.holders]
  have hnot : v ∉ f.holders args [] := by simpa [Func.holders] using hv
  refine ⟨?_, ?_, fun {w x} hw => ?_, ?_, ?_, ?_⟩
  · rw [hold, regs_updateDef, hregs, Array.toList_push]
    exact List.rel_append h.regs (.cons ht' .nil)
  · rw [regs_updateDef, hregs, Array.size_push]
    omega
  · obtain ⟨d, hd, hpay, hinstr, harg, hreg⟩ := h.definition hw
    rw [getElem?_defs_updateDef, hold, ofHolder_append hnot, ← h.size_regs]
    by_cases hwv : w = v
    · subst hwv
      obtain rfl := Option.some.inj (hval.symm.trans hw)
      exact ⟨{ d with arg := some n, reg := Reg.virtual c.regs.types.size }, by simp [hd], hpay,
        hinstr, by simp [Value.positionIn], by simp⟩
    · refine ⟨d, by simp [hwv, hd], hpay, hinstr, ?_, by simp [hwv, hreg]⟩
      rw [harg]
      cases x <;> simp [Value.positionIn, hwv]
  · rw [slots_updateDef]
    exact h.slots
  · rw [slotOf_updateDef]
    exact h.slotSize
  · intro w
    rw [slot?, slotOf_updateDef]
    exact h.slot w

theorem producerIn_append {is : List InstrId} {x : Value} :
    x.producerIn (is ++ [i]) = if x = .result i then some i else x.producerIn is := by
  cases x <;> grind [Value.producerIn]

theorem producerIn_eq_some {is : List InstrId} {x : Value} :
    x.producerIn is = some i ↔ x = .result i ∧ i ∈ is := by
  cases x <;> grind [Value.producerIn]

/-- What an instruction gets: its result is defined and, if there is one, has a new register. -/
theorem assignResult_eq_ok {ins : Instr} (hc : assignResult c i ins = .ok c') :
    c'.slots = c.slots ∧ c'.slotOf = c.slotOf ∧
    (∀ w, w ≠ ins.result → c'.defs[w]? = c.defs[w]?) ∧
    (ins.hasResult = false → c'.regs = c.regs ∧
      c'.defs[ins.result]? = c.defs[ins.result]?.map ({ · with instr := some i })) ∧
    (ins.hasResult = true → c.regs.types.size < Reg.reservedId ∧
      c'.regs.types = c.regs.types.push ins.type ∧
      c'.defs[ins.result]? = c.defs[ins.result]?.map
        ({ · with instr := some i, reg := Reg.virtual c.regs.types.size })) := by
  unfold assignResult at hc
  cases hr : ins.hasResult with
  | false =>
    simp only [hr, Bool.false_eq_true, if_false, Except.pure_eq_ok] at hc
    subst hc
    refine ⟨by simp, by simp, fun w hw => ?_, fun _ => ⟨by simp, ?_⟩, by simp⟩
    · rw [getElem?_defs_updateDef, if_neg hw]
    · rw [getElem?_defs_updateDef, if_pos rfl]
  | true =>
    simp only [hr, if_true, Except.bind_eq_ok, Except.pure_eq_ok] at hc
    obtain ⟨⟨r, regs⟩, hadd, rfl⟩ := hc
    obtain ⟨hlt, rfl, hregs⟩ := add_eq_ok.1 hadd
    simp only [regs_updateDef] at hlt hregs
    refine ⟨by simp, by simp, fun w hw => ?_, by simp, fun _ => ⟨hlt, by simpa using hregs, ?_⟩⟩
    · rw [getElem?_defs_updateDef, if_neg hw, getElem?_defs_updateDef, if_neg hw]
    · rw [getElem?_defs_updateDef, if_pos rfl, getElem?_defs_updateDef, if_pos rfl]
      cases c.defs[ins.result]? <;> simp

/-- What reserving a piece of the stack does. -/
theorem slot?_assignSlot {ins : Instr} (hi : f.instrs[i]? = some ins)
    (hv : ins.result < c.slotOf.size) :
    (c.assignSlot ins).regs = c.regs ∧ (c.assignSlot ins).defs = c.defs ∧
    (c.assignSlot ins).slotOf.size = c.slotOf.size ∧
    (c.assignSlot ins).slots.slots.size = c.slots.slots.size + (if f.isAlloca i then 1 else 0) ∧
    ∀ w, (c.assignSlot ins).slot? w =
      if f.isAlloca i ∧ w = ins.result then some c.slots.slots.size else c.slot? w := by
  have hop : f.opOf i = ins.op := by simp [Func.opOf, hi]
  unfold assignSlot
  split
  · next t e n a he =>
    have ha : f.isAlloca i = true := by simp [Func.isAlloca, hop, he]
    refine ⟨rfl, rfl, by simp, by simp [SlotTable.add, ha], fun w => ?_⟩
    by_cases hw : w = ins.result
    · simp [slot?, SlotTable.add, hw, hv, ha]
    · simp [slot?, hw, Array.getElem?_setIfInBounds_ne (Ne.symm hw)]
  · next hne =>
    have ha : f.isAlloca i = false := by
      unfold Func.isAlloca
      split
      · next t e n a he => exact absurd (hop.symm.trans he) (hne t e n a)
      · rfl
    exact ⟨rfl, rfl, rfl, by simp [ha], by simp [ha]⟩

/-- The result of an instruction comes behind the values that already have registers. -/
theorem holders_append {ins : Instr} (hins : f.instrs[i]? = some ins) (args : List ValueId)
    (is : List InstrId) :
    f.holders args (is ++ [i]) =
      f.holders args is ++ if ins.hasResult then [ins.result] else [] := by
  cases hr : ins.hasResult <;> simp [Func.holders, Func.resultOf?, hins, hr]

theorem result_not_mem_holders (hn : f.Naming) {ins : Instr} (hins : f.instrs[i]? = some ins)
    {args : List ValueId} {is : List InstrId}
    (hargs : ∀ v ∈ args, ∃ n t, f.values[v]? = some (.arg n t)) (hi : i ∉ is) :
    ins.result ∉ f.holders args is := by
  have hval := hn.result_value hins
  intro hmem
  rcases List.mem_append.1 hmem with hmem | hmem
  · obtain ⟨n, t, ht⟩ := hargs _ hmem
    cases hval.symm.trans ht
  · obtain ⟨j, hj, hres⟩ := List.mem_filterMap.1 hmem
    cases hval.symm.trans (Func.resultOf?_eq_some hn hres)
    exact hi hj

/-- The slot of another instruction is the next one if it reserves any, and the others stay. -/
theorem slotIn_append {is : List InstrId} (hi : i ∉ is) (x : Value) :
    ((x.producerIn (is ++ [i])).bind fun j =>
      if f.isAlloca j then some (((is ++ [i]).filter f.isAlloca).idxOf j) else none) =
    if f.isAlloca i ∧ x = .result i then some (is.filter f.isAlloca).length
    else (x.producerIn is).bind fun j =>
      if f.isAlloca j then some ((is.filter f.isAlloca).idxOf j) else none := by
  have hni : i ∉ is.filter f.isAlloca := fun hmem => hi (List.mem_filter.1 hmem).1
  rw [producerIn_append]
  by_cases hx : x = .result i
  · subst hx
    cases ha : f.isAlloca i with
    | false => simp [Value.producerIn, hi, ha]
    | true => simp [ha, List.idxOf_append_of_notMem hni]
  · rw [if_neg hx, if_neg fun h => hx h.2]
    refine Option.bind_congr fun j hj => ?_
    have hmem : j ∈ is := (producerIn_eq_some.1 hj).2
    split
    · next ha => rw [List.filter_append, List.idxOf_append_of_mem (List.mem_filter.2 ⟨hmem, ha⟩)]
    · rfl

/-- A value names an instruction just if it is the result of the instruction. -/
theorem eq_result_iff (hn : f.Naming) {ins : Instr} (hins : f.instrs[i]? = some ins) {x : Value}
    (hx : f.values[w]? = some x) : x = .result i ↔ w = ins.result := by
  constructor
  · rintro rfl
    obtain ⟨ins', hins', rfl⟩ := hn.value_result hx
    rw [Option.some.inj (hins.symm.trans hins')]
  · rintro rfl
    exact Option.some.inj (hx.symm.trans (hn.result_value hins))

/-- The definitions of all values after the result of another instruction was defined. -/
theorem Assigned.definition_assignResult (hn : f.Naming) {args : List ValueId} {is : List InstrId}
    (h : Assigned f args is c) (hargs : ∀ v ∈ args, ∃ n t, f.values[v]? = some (.arg n t))
    (hi : i ∉ is) {ins : Instr} (hins : f.instrs[i]? = some ins)
    (hc : assignResult c i ins = .ok c') {x : Value} (hx : f.values[w]? = some x) :
    ∃ d, c'.defs[w]? = some d ∧ d.payload = x.payload ∧ d.instr = x.producerIn (is ++ [i]) ∧
      d.arg = x.positionIn args w ∧ d.reg = Reg.ofHolder (f.holders args (is ++ [i])) w := by
  obtain ⟨-, -, hother, hvoid, hreg⟩ := assignResult_eq_ok hc
  obtain ⟨d, hd, hpay, hinstr, harg, hdreg⟩ := h.definition hx
  have hnot := result_not_mem_holders hn hins hargs hi
  rw [producerIn_append, holders_append hins]
  by_cases hwv : w = ins.result
  · subst hwv
    obtain rfl := (eq_result_iff hn hins hx).2 rfl
    cases hr : ins.hasResult with
    | false =>
      rw [(hvoid hr).2, hd]
      exact ⟨_, rfl, hpay, by simp, harg, by simpa using hdreg⟩
    | true =>
      rw [(hreg hr).2.2, hd]
      refine ⟨_, rfl, hpay, by simp, harg, ?_⟩
      simp [ofHolder_append hnot, h.size_regs]
  · rw [hother w hwv, if_neg (mt (eq_result_iff hn hins hx).1 hwv)]
    refine ⟨d, hd, hpay, hinstr, harg, hdreg.trans ?_⟩
    cases hr : ins.hasResult with
    | false => simp
    | true => simp [ofHolder_append hnot, hwv]

/-- Giving an instruction its register and its slot. -/
theorem Assigned.assignInstr (hn : f.Naming) {args : List ValueId} {is : List InstrId}
    (h : Assigned f args is c) (hargs : ∀ v ∈ args, ∃ n t, f.values[v]? = some (.arg n t))
    (hi : i ∉ is) (hc : assignInstr f c i = .ok c') : Assigned f args (is ++ [i]) c' := by
  simp only [Context.assignInstr, Except.bind_eq_ok, Except.pure_eq_ok, Func.instr_eq_ok] at hc
  obtain ⟨ins, hins, c₁, hres, rfl⟩ := hc
  obtain ⟨hslots, hslotOf, -, hvoid, hreg⟩ := assignResult_eq_ok hres
  have hval : f.values[ins.result]? = some (.result i) := hn.result_value hins
  have hlt : ins.result < c₁.slotOf.size := by
    rw [hslotOf, h.slotSize]
    exact (Array.getElem?_eq_some_iff.1 hval).1
  obtain ⟨hregs, hdefs, hsize, hcount, hslot⟩ := slot?_assignSlot (c := c₁) hins hlt
  refine ⟨?_, ?_, fun hw => ?_, ?_, by rw [hsize, hslotOf, h.slotSize], fun w => ?_⟩
  · rw [holders_append hins, hregs]
    cases hr : ins.hasResult with
    | false => simpa [(hvoid hr).1] using h.regs
    | true =>
      rw [(hreg hr).2.1, Array.toList_push]
      exact List.rel_append h.regs (.cons (Func.valueType_result hn hins) .nil)
  · rw [hregs]
    cases hr : ins.hasResult with
    | false => simpa [(hvoid hr).1] using h.bound
    | true =>
      obtain ⟨hlt, hpush, -⟩ := hreg hr
      rw [hpush, Array.size_push]
      omega
  · rw [hdefs]
    exact h.definition_assignResult hn hargs hi hins hres hw
  · rw [hcount, hslots, h.slots, List.filter_append, List.length_append]
    cases ha : f.isAlloca i <;> simp [ha]
  · rw [hslot, hslots, h.slots, slot?, hslotOf, ← slot?, h.slot]
    cases hx : f.values[w]? with
    | none =>
      have hne : w ≠ ins.result := by
        rintro rfl
        cases hval.symm.trans hx
      rw [if_neg fun h => hne h.2]
      rfl
    | some x =>
      rw [Option.bind_some, Option.bind_some, slotIn_append hi]
      simp only [eq_result_iff hn hins hx]

/-! ### All assignments -/

/-- A context that was set up for a function. -/
structure Ready (f : Func) (c : Context) : Prop extends Assigned f f.params f.inserted c where
  func : c.func = some f
  owner : c.owner = some f.index
  users : f.users = .ok c.users
  labels : c.labels = (f.blockIds.map (· + 1)).toArray

/-- The register that a context gives to a value of a function. -/
def Gives (c : Context) (f : Func) (v : ValueId) (r : Reg) : Prop :=
  v < f.values.size ∧ ∃ d, c.defs[v]? = some d ∧ d.reg = r

/-- Assigning registers and slots changes nothing else. -/
private def Keeps (c c' : Context) : Prop :=
  c'.func = c.func ∧ c'.owner = c.owner ∧ c'.users = c.users

private theorem keeps_updateDef (g : Definition → Definition) : Keeps c (c.updateDef v g) := by
  unfold updateDef
  split <;> exact ⟨rfl, rfl, rfl⟩

private theorem Keeps.trans {c₁ c₂ c₃ : Context} (h : Keeps c₁ c₂) (h' : Keeps c₂ c₃) :
    Keeps c₁ c₃ :=
  ⟨h'.1.trans h.1, h'.2.1.trans h.2.1, h'.2.2.trans h.2.2⟩

private theorem keeps_assignArg {arg : Nat × ValueId} (h : assignArg f c arg = .ok c') :
    Keeps c c' := by
  simp only [Context.assignArg, Except.bind_eq_ok, Except.pure_eq_ok] at h
  obtain ⟨_, -, ⟨r, regs⟩, -, rfl⟩ := h
  exact keeps_updateDef (c := { c with regs }) _

private theorem keeps_assignInstr (h : assignInstr f c i = .ok c') : Keeps c c' := by
  simp only [Context.assignInstr, Except.bind_eq_ok, Except.pure_eq_ok] at h
  obtain ⟨ins, -, c₁, hres, rfl⟩ := h
  have hslot : Keeps c₁ (c₁.assignSlot ins) := by
    unfold assignSlot
    split <;> exact ⟨rfl, rfl, rfl⟩
  refine Keeps.trans ?_ hslot
  unfold assignResult at hres
  split at hres
  · simp only [Except.bind_eq_ok, Except.pure_eq_ok] at hres
    obtain ⟨⟨r, regs⟩, -, rfl⟩ := hres
    exact (keeps_updateDef _).trans (keeps_updateDef (c := { c.updateDef _ _ with regs }) _)
  · obtain rfl := Except.pure_eq_ok.1 hres
    exact keeps_updateDef _

/-- Before any assignment no value has a register or a slot. -/
private theorem assigned_nil (hfunc : c.regs = {}) (hslots : c.slots = {})
    (hsize : c.users.size = f.values.size)
    (hdefs : c.defs = (List.zipWith freshDef f.values.toList c.users.toList).toArray)
    (hslotOf : c.slotOf = Array.replicate f.values.size none) : Assigned f [] [] c := by
  refine ⟨by simp [hfunc, Func.holders], by simp [hfunc], fun {v x} hv => ?_, by simp [hslots],
    by simp [hslotOf], fun v => ?_⟩
  · have hlt : v < c.users.size := hsize ▸ (Array.getElem?_eq_some_iff.1 hv).1
    refine ⟨freshDef x c.users[v], ?_, rfl, ?_, ?_, by simp [freshDef, Reg.ofHolder, Func.holders]⟩
    · simp [hdefs, List.getElem?_zipWith, hv, hlt]
    · cases x <;> simp [freshDef, Value.producerIn]
    · cases x <;> simp [freshDef, Value.positionIn]
  · have hnone : (f.values[v]?.bind (·.producerIn [])) = none := by
      cases f.values[v]? with
      | none => rfl
      | some x => cases x <;> simp [Value.producerIn]
    rw [hnone, slot?, hslotOf]
    by_cases hv : v < f.values.size <;> simp [hv]

/-- Giving all arguments their registers. -/
theorem Assigned.assignArgs (hcon : f.Coherent) (h : Assigned f [] [] c)
    (hc : ((List.range f.params.length).zip f.params).foldlM (Context.assignArg f) c = .ok c') :
    Assigned f f.params [] c' := by
  have hsnd : ((List.range f.params.length).zip f.params).map (·.2) = f.params :=
    List.map_snd_zip (by simp)
  rw [← hsnd]
  refine Except.foldlM_processed (fun before c => Assigned f (before.map (·.2)) [] c) ?_ h hc
  rintro before ⟨n, v⟩ after c c' hl hc hc'
  have hget : ((List.range f.params.length).zip f.params)[before.length]? = some (n, v) := by
    simp [hl]
  obtain ⟨hn, hv⟩ := List.getElem?_zip_eq_some.1 hget
  obtain ⟨_, rfl⟩ := List.getElem?_eq_some_iff.1 hn
  obtain ⟨t, ht⟩ := hcon.param_arg hv
  have hnodup := Func.nodup_params hcon.toNaming
  rw [← hsnd, hl, List.map_append, List.map_cons, List.perm_middle.nodup_iff] at hnodup
  have hnot : v ∉ before.map (·.2) := fun hmem =>
    (List.nodup_cons.1 hnodup).1 (List.mem_append_left _ hmem)
  rw [List.map_append]
  exact hc.assignArg hnot (by simpa using ht) hc'

/-- Giving all instructions their registers and slots. -/
theorem Assigned.assignInstrs (hcon : f.Coherent) (h : Assigned f f.params [] c)
    (hc : f.inserted.foldlM (Context.assignInstr f) c = .ok c') :
    Assigned f f.params f.inserted c' := by
  refine Except.foldlM_processed (fun before c => Assigned f f.params before c) ?_ h hc
  intro before i after c c' hl hc hc'
  refine hc.assignInstr hcon.toNaming (fun v hv => ?_) ?_ hc'
  · obtain ⟨n, hn⟩ := List.getElem?_of_mem hv
    obtain ⟨t, ht⟩ := hcon.param_arg hn
    exact ⟨n, t, ht⟩
  · have hnodup := Func.nodup_inserted hcon
    rw [hl, List.perm_middle.nodup_iff] at hnodup
    exact fun hmem => (List.nodup_cons.1 hnodup).1 (List.mem_append_left _ hmem)

theorem assign_eq_ok {us : Array (List InstrId)} (hcon : f.Coherent) (hus : f.users = .ok us)
    (hfunc : c.func = some f) (hregs : c.regs = {}) (hslots : c.slots = {})
    (h : assign f us c = .ok c') : Ready f c' := by
  simp only [assign, Except.bind_eq_ok, Except.pure_eq_ok] at h
  obtain ⟨c₁, hargs, c₂, hinstrs, rfl⟩ := h
  have hnil : Assigned f [] [] { c with
      users := us
      owner := some f.index
      defs := (List.zipWith freshDef f.values.toList us.toList).toArray
      slotOf := Array.replicate f.values.size none } :=
    assigned_nil hregs hslots (Func.size_users hus) rfl rfl
  have hassigned := (hnil.assignArgs hcon hargs).assignInstrs hcon hinstrs
  have hkeep₁ := Except.foldlM_induction (fun c₁ => Keeps _ c₁)
    (fun c₁ a c₂ _ hc hc' => hc.trans (keeps_assignArg hc')) ⟨rfl, rfl, rfl⟩ hargs
  have hkeep₂ := Except.foldlM_induction (fun c₂ => Keeps _ c₂)
    (fun c₁ a c₂ _ hc hc' => hc.trans (keeps_assignInstr hc')) hkeep₁ hinstrs
  obtain ⟨hf, ho, hu⟩ := hkeep₂
  exact {
    regs := hassigned.regs
    bound := hassigned.bound
    definition := hassigned.definition
    slots := hassigned.slots
    slotSize := hassigned.slotSize
    slot := hassigned.slot
    func := hf.trans hfunc
    owner := ho
    users := by rw [hu]; exact hus
    labels := rfl }

/-- A context that was set up for a coherent function is ready for it. -/
theorem ready_of_init (hcon : f.Coherent) (h : (init f).run c = .ok () c') : Ready f c' := by
  simp only [init, EStateM.run, EStateM.bind_eq_ok, EStateM.modify_eq_ok] at h
  obtain ⟨_, c₁, rfl, h⟩ := h
  cases hus : f.users with
  | error e =>
    rw [hus] at h
    exact absurd h EStateM.throw_ne_ok
  | ok us =>
    simp only [hus, EStateM.bind_eq_ok, EStateM.get_eq_ok] at h
    obtain ⟨_, _, ⟨rfl, rfl⟩, h⟩ := h
    cases hc₂ : assign f us { c with func := some f, regs := {}, slots := {}, slotOf := #[] } with
    | error e =>
      rw [hc₂] at h
      exact absurd h EStateM.throw_ne_ok
    | ok c₂ =>
      rw [hc₂] at h
      obtain rfl := EStateM.set_eq_ok.1 h
      exact assign_eq_ok hcon hus rfl rfl rfl hc₂

end Context

/-! ### Reading the assignments -/

namespace Reg

theorem id_virtual {n : Nat} (h : n < 2 ^ 32) : (Reg.virtual n).id = n := by
  have h64 : n < 2 ^ 64 := Nat.lt_trans h (by decide)
  simp only [Reg.id, Reg.virtual, Reg.idMask, UInt64.toNat_and, UInt64.toNat_ofNat']
  rw [Nat.mod_eq_of_lt h64]
  exact (Nat.and_two_pow_sub_one_eq_mod n 32).trans (Nat.mod_eq_of_lt h)

theorem isReal_virtual {n : Nat} (h : n < 2 ^ 32) : (Reg.virtual n).isReal = false := by
  have h64 : n < 2 ^ 64 := Nat.lt_trans h (by decide)
  have hz : UInt64.ofNat n >>> 32 = 0 := by
    apply UInt64.toNat_inj.1
    simp only [UInt64.toNat_shiftRight, UInt64.toNat_ofNat']
    rw [Nat.mod_eq_of_lt h64]
    simp [Nat.shiftRight_eq_div_pow]
    omega
  simp [Reg.isReal, Reg.real, Reg.virtual, hz]

end Reg

namespace Func

variable {f : Func} {i : InstrId} {v : ValueId}

/-- The values that live in registers. -/
def InRegister (f : Func) (v : ValueId) : Prop := v ∈ f.holders f.params f.inserted

/-- The register of a value. -/
def regOf (f : Func) (v : ValueId) : Reg := Reg.ofHolder (f.holders f.params f.inserted) v

theorem regOf_eq_virtual (h : f.InRegister v) :
    f.regOf v = Reg.virtual ((f.holders f.params f.inserted).idxOf v) := if_pos h

theorem regOf_eq_invalid (h : ¬f.InRegister v) : f.regOf v = Reg.invalid := if_neg h

theorem inRegister_param (h : v ∈ f.params) : f.InRegister v := List.mem_append_left _ h

theorem inRegister_result {ins : Instr} (hi : i ∈ f.inserted) (hins : f.instrs[i]? = some ins)
    (hr : ins.hasResult = true) : f.InRegister ins.result :=
  List.mem_append_right _ (List.mem_filterMap.2 ⟨i, hi, by simp [resultOf?, hins, hr]⟩)

/-- The values that live in registers are arguments and results. -/
theorem InRegister.cases (hn : f.Naming) (h : f.InRegister v) :
    (∃ n t, f.values[v]? = some (.arg n t)) ∨ ∃ i ins, i ∈ f.inserted ∧ f.instrs[i]? = some ins ∧
      ins.hasResult = true ∧ ins.result = v := by
  rcases List.mem_append.1 h with h | h
  · obtain ⟨n, hget⟩ := List.getElem?_of_mem h
    obtain ⟨t, ht⟩ := hn.param_arg hget
    exact .inl ⟨n, t, ht⟩
  · obtain ⟨i, hi, hres⟩ := List.mem_filterMap.1 h
    obtain ⟨ins, hins, hres⟩ := Option.bind_eq_some_iff.1 hres
    split at hres
    · next hr => exact .inr ⟨i, ins, hi, hins, hr, Option.some.inj hres⟩
    · cases hres

/-- The arguments have the first registers. -/
theorem regOf_param (hn : f.Naming) {n : Nat} (h : f.params[n]? = some v) :
    f.regOf v = Reg.virtual n := by
  have hmem := List.mem_of_getElem? h
  obtain ⟨hlt, rfl⟩ := List.getElem?_eq_some_iff.1 h
  have hidx : f.params.idxOf f.params[n] = n := (nodup_params hn).idxOf_getElem n hlt
  rw [regOf_eq_virtual (inRegister_param hmem), holders, List.idxOf_append_of_mem hmem, hidx]

end Func

namespace Context.Ready

variable {f : Func} {c : Context} {i : InstrId} {v w : ValueId}

theorem idxOf_lt (h : Ready f c) (hv : f.InRegister v) :
    (f.holders f.params f.inserted).idxOf v < Reg.reservedId := by
  have hlt := List.idxOf_lt_length_of_mem hv
  have := h.bound
  rw [h.size_regs] at this
  omega

theorem id_regOf (h : Ready f c) (hv : f.InRegister v) :
    (f.regOf v).id = (f.holders f.params f.inserted).idxOf v := by
  have hlt := h.idxOf_lt hv
  have : Reg.reservedId < 2 ^ 32 := by decide
  rw [Func.regOf_eq_virtual hv, Reg.id_virtual (by omega)]

/-- Different values live in different registers. -/
theorem regOf_inj (h : Ready f c) (hv : f.InRegister v) (hw : f.InRegister w)
    (he : f.regOf v = f.regOf w) : v = w := by
  have hid := congrArg Reg.id he
  rw [h.id_regOf hv, h.id_regOf hw] at hid
  exact Dominators.eq_of_idxOf_eq hv hid

theorem isReal_regOf (h : Ready f c) (hv : f.InRegister v) : (f.regOf v).isReal = false := by
  have hlt := h.idxOf_lt hv
  have : Reg.reservedId < 2 ^ 32 := by decide
  rw [Func.regOf_eq_virtual hv]
  exact Reg.isReal_virtual (by omega)

/-- A register has the type of the value that lives in it. -/
theorem type_regOf (h : Ready f c) (hv : f.InRegister v) :
    f.valueType v = .ok (c.regs.type (f.regOf v)) := by
  have hlt := List.idxOf_lt_length_of_mem hv
  obtain ⟨t, ht, hvt⟩ : ∃ t, c.regs.types[(f.holders f.params f.inserted).idxOf v]? = some t ∧
      f.valueType v = .ok t := by
    have hsize : (f.holders f.params f.inserted).idxOf v < c.regs.types.size := h.size_regs ▸ hlt
    have hrel := List.Forall₂.get h.regs hlt (by simpa using hsize)
    refine ⟨_, Array.getElem?_eq_getElem hsize, ?_⟩
    simpa [List.getElem_idxOf hlt] using hrel
  rw [RegTable.type, h.isReal_regOf hv, h.id_regOf hv]
  simp [ht, hvt]

theorem type_result (h : Ready f c) (hn : f.Naming) {ins : Instr} (hins : f.instrs[i]? = some ins)
    (hv : f.InRegister ins.result) : c.regs.type (f.regOf ins.result) = ins.type := by
  have htype := h.type_regOf hv
  rw [Func.valueType_result hn hins] at htype
  exact (Except.ok.inj htype).symm

theorem regOf_ne_invalid (h : Ready f c) (hv : f.InRegister v) : f.regOf v ≠ Reg.invalid := by
  intro he
  have hlt := h.idxOf_lt hv
  rw [← h.id_regOf hv, he] at hlt
  exact absurd hlt (by decide)

/-- The context gives a register to the value that lives in it and to no other. -/
theorem gives_regOf_iff (h : Ready f c) (hv : f.InRegister v) :
    c.Gives f w (f.regOf v) ↔ w < f.values.size ∧ w = v := by
  refine and_congr_right fun hw => ?_
  obtain ⟨d, hd, -, -, -, hreg⟩ := h.definition (Array.getElem?_eq_getElem hw)
  constructor
  · rintro ⟨d', hd', he⟩
    obtain rfl := Option.some.inj (hd.symm.trans hd')
    have hw' : f.regOf w = f.regOf v := hreg.symm.trans he
    refine h.regOf_inj (by_contra fun hnot => ?_) hv hw'
    exact h.regOf_ne_invalid hv (hw'.symm.trans (Func.regOf_eq_invalid hnot))
  · rintro rfl
    exact ⟨d, hd, hreg⟩

theorem label_eq_ok {b : BlockId} {l : Label} (h : Ready f c) :
    c.label b = .ok l ↔ b < f.blocks.size ∧ l = b + 1 := by
  rw [Context.label, h.labels]
  by_cases hb : b < f.blocks.size
  · simp [Func.blockIds, hb, eq_comm]
  · simp [Func.blockIds, hb]

end Context.Ready

end Codegen
