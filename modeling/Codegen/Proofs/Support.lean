import Codegen.Proofs.Arrangement
import Codegen.Proofs.Faults

/-!
# What both lowerings support

Selecting machine instructions and converting to nodes look at an instruction in the same way in
most respects: at its types, at whether its operands are addresses, and at whether constants fit.
They differ in what they ask of an operand that another instruction produces. Selection asks for the
register of the operand, and a conversion for the node of the instruction if that is in the same
block. So what is said here about an operand is what both find out, and the register follows once
all instructions of the function are supported.

## Main definitions

* `Func.ComparisonsBranch`, `Func.Regular`: functions whose shape leaves the two no other choice.
* `X86.Fits`: values that can stand as operands, as far as both can tell.
* `X86.Supported`: the operations that are lowered, and `X86.Supports` for all of a function.

## Main results

* `X86.Supports.inRegister`: if all instructions are supported, operands live in registers.
* `X86.Supports.exists_select`: supported instructions are selected.
* `X86.supports_of_select`: if all instructions are selected, all are supported.
-/

namespace Codegen

/-! ### The shape of functions -/

namespace Func

variable {f : Func} {j : InstrId} {v : ValueId}

/-- Every comparison is read, and only by conditional branches of its block. -/
def ComparisonsBranch (f : Func) : Prop :=
  ∀ j ∈ f.inserted, ∀ ins ∈ f.instrs[j]?, ins.op.map (·.opcode) = some .icmp →
    (∃ u ∈ f.inserted, ∃ op ∈ f.opOf u, ins.result ∈ op.args) ∧
    ∀ u ∈ f.inserted, ∀ op ∈ f.opOf u, ins.result ∈ op.args →
      op.opcode = .condBr ∧ f.blockOf u = f.blockOf j

instance (f : Func) : Decidable f.ComparisonsBranch :=
  inferInstanceAs (Decidable (∀ j ∈ f.inserted, ∀ ins ∈ f.instrs[j]?,
    ins.op.map (·.opcode) = some .icmp →
      (∃ u ∈ f.inserted, ∃ op ∈ f.opOf u, ins.result ∈ op.args) ∧
      ∀ u ∈ f.inserted, ∀ op ∈ f.opOf u, ins.result ∈ op.args →
        op.opcode = .condBr ∧ f.blockOf u = f.blockOf j))

/-- Functions in which control reaches every block, operands are no `void`s, something comes into
every phi, and comparisons are there for the branches that follow them. -/
structure Regular (f : Func) : Prop where
  reachable : ∀ b < f.blocks.size, f.Reachable b
  yields : f.OperandsYield
  fed : ∀ i ∈ f.inserted, ∀ op ∈ f.opOf i, op.isPhi = true → op.args ≠ []
  comparisons : f.ComparisonsBranch

theorem ComparisonsBranch.reads (h : f.ComparisonsBranch) (hn : f.Naming)
    (hv : f.values[v]? = some (.result j)) (hj : j ∈ f.inserted) {p : Predicate} {t : TypeId}
    {x y : ValueId} (hop : f.opOf j = some (.icmp p t x y)) :
    (∃ u ∈ f.inserted, ∃ op ∈ f.opOf u, v ∈ op.args) ∧
    ∀ u ∈ f.inserted, ∀ op, f.opOf u = some op → v ∈ op.args →
      (∃ l r, op = .condBr v l r) ∧ f.blockOf u = f.blockOf j := by
  obtain ⟨ins, hins, rfl⟩ := hn.value_result hv
  have hicmp : ins.op.map (·.opcode) = some .icmp := by
    have hop' : ins.op = some (.icmp p t x y) := by simpa [opOf, hins] using hop
    simp [hop', Operation.opcode]
  obtain ⟨hread, hall⟩ := h j hj ins hins hicmp
  refine ⟨hread, fun u hu op hu' hv' => ?_⟩
  obtain ⟨hcode, hblock⟩ := hall u hu op hu' hv'
  refine ⟨?_, hblock⟩
  cases op <;> cases hcode
  obtain rfl := List.mem_singleton.1 hv'
  exact ⟨_, _, rfl⟩

end Func

namespace TypeTable

variable {types : TypeTable} {t : TypeId}

theorem ofType_of_isInt {bits : Int} (h : types.isInt t bits = true) :
    RegClass.ofType types t = .int := by
  unfold isInt at h
  split at h
  · next b hb => simp [RegClass.ofType, kind, hb, Ty.kind]
  · cases h

/-- A type whose values live in registers is neither `void` nor missing. -/
theorem Interned.ne_of_ofType (hi : types.Interned) (h : RegClass.ofType types t = .int) :
    (t != TypeId.void && t != TypeId.invalid) = true := by
  have hvoid : t ≠ TypeId.void := by
    rintro rfl
    simp [RegClass.ofType, hi.kind_void] at h
  have hinvalid : t ≠ TypeId.invalid := by
    rintro rfl
    simp [RegClass.ofType, kind, get?, TypeId.invalid] at h
  simp [hvoid, hinvalid]

end TypeTable

namespace X86

variable {src : Source} {c c' : Context} {b : BlockId} {i j : InstrId} {v : ValueId}
  {op : Operation} {ins : Codegen.Instr}

/-! ### Operands -/

/-- A value that can stand as an operand, as far as this can be said without its register: it is no
address, and a constant has to fit. -/
structure Fits (src : Source) (v : ValueId) : Prop where
  plain : ∀ {j}, src.func.values[v]? = some (.result j) → j ∈ src.func.inserted →
    src.func.isAlloca j = false
  imm : ∀ {x}, src.func.values[v]? = some x → Unproduced src.func v x → ∃ t bits imm,
    src.func.valueType v = .ok t ∧ src.types.intBits t = .ok bits ∧
      imm32? x.payload bits = some imm

/-- A value that is not taken for a constant. -/
def Produced (f : Func) (v : ValueId) : Prop := ∀ {x}, f.values[v]? = some x → ¬Unproduced f v x

theorem produced_of_inRegister (hn : src.func.Naming) (hv : src.func.InRegister v) :
    Produced src.func v := by
  intro x hx hu
  rcases hv.cases hn with ⟨n, t, harg⟩ | ⟨j, ins, hj, hins, -, rfl⟩
  · obtain rfl := Option.some.inj (hx.symm.trans harg)
    have hparam := List.mem_of_getElem? (hn.arg_param hx)
    exact absurd hu.2 (by simp [Value.positionIn, hparam])
  · obtain rfl := Option.some.inj (hx.symm.trans (hn.result_value hins))
    exact unproduced_result.1 hu hj

theorem Stands.fits (hn : src.func.Naming) {o : Operand} (h : Stands src v o) : Fits src v := by
  cases h with
  | reg hv ha =>
    exact ⟨fun hj _ => ha _ hj, fun hx hu => absurd hu (produced_of_inRegister hn hv hx)⟩
  | imm hx hu ht hbits himm =>
    refine ⟨fun hj hin => ?_, fun hx' _ => ?_⟩
    · obtain rfl := Option.some.inj (hx.symm.trans hj)
      exact absurd hin (unproduced_result.1 hu)
    · obtain rfl := Option.some.inj (hx.symm.trans hx')
      exact ⟨_, _, _, ht, hbits, himm⟩

theorem Stands.produced (hn : src.func.Naming) {r : Reg} (h : Stands src v (.reg r)) :
    Produced src.func v := by
  cases h with
  | reg hv _ => exact produced_of_inRegister hn hv

theorem Fits.stands_reg (hn : src.func.Naming) (h : Fits src v) (hv : src.func.InRegister v) :
    Stands src v (.reg (src.func.regOf v)) :=
  .reg hv fun _ hj => h.plain hj (by_contra fun hnot =>
    produced_of_inRegister hn hv hj (unproduced_result.2 hnot))

theorem Fits.slot?_eq_none (h : Fits src v) (hr : Context.Ready src.func c) :
    c.slot? v = none := by
  cases hslot : c.slot? v with
  | none => rfl
  | some s =>
    obtain ⟨j, hj, hin, ha, -⟩ := slot?_eq_some hr hslot
    rw [h.plain hj hin] at ha
    cases ha

theorem immOperand_eq_ok (h : Context.Ready src.func c) {x : Value}
    (hx : src.func.values[v]? = some x) {imm : Int32} :
    immOperand src c i v = .ok imm ↔ ∃ t bits, src.func.valueType v = .ok t ∧
      src.types.intBits t = .ok bits ∧ imm32? x.payload bits = some imm := by
  obtain ⟨d, hd, hpay, -⟩ := exists_definition h hx
  simp only [immOperand, Except.bind_eq_ok, liftFault_eq_ok, hd, Except.ok.injEq, exists_eq_left',
    hpay]
  constructor
  · rintro ⟨t, ht, bits, hbits, himm⟩
    refine ⟨t, bits, ht, hbits, ?_⟩
    split at himm
    · next imm' himm' => rw [himm', Except.pure_eq_ok.1 himm]
    · simp [Except.bind_eq_ok, Except.throw_ne_ok] at himm
  · rintro ⟨t, bits, ht, hbits, himm⟩
    refine ⟨t, ht, bits, hbits, ?_⟩
    rw [himm]
    rfl

theorem valueReg_of_inRegister (h : Context.Ready src.func c) {x : Value}
    (hx : src.func.values[v]? = some x) (hv : src.func.InRegister v) :
    c.valueReg src.types v = .ok (src.func.regOf v) := by
  obtain ⟨d, hd, -, -, -, hreg⟩ := exists_definition h hx
  have hvalid : (src.func.regOf v).isValid = true := by
    have hlt := h.idxOf_lt hv
    have : Reg.reservedId < Reg.invalidId := by decide
    rw [Reg.isValid, h.id_regOf hv, bne_iff_ne]
    omega
  simp [Context.valueReg, Except.bind_eq_ok, liftFault_eq_ok, hd, hreg, hvalid, Except.pure_eq_ok]

theorem Stands.regOperand_eq (hn : src.func.Naming) (h : Context.Ready src.func c) {x : Value}
    (hx : src.func.values[v]? = some x) (hs : Stands src v (.reg (src.func.regOf v))) :
    regOperand src c i v = .ok (src.func.regOf v) := by
  obtain ⟨d, hd, -, -, hconst, -⟩ := exists_definition h hx
  have hslot := (hs.fits hn).slot?_eq_none h
  have hnot : ¬d.isConst = true := fun hd => hs.produced hn hx (hconst.1 hd)
  cases hs with
  | reg hv _ =>
    simp [regOperand, Except.bind_eq_ok, liftFault_eq_ok, hslot, hd, hnot,
      valueReg_of_inRegister h hx hv]

/-- A value that an operand stands for can be asked for as an operand. -/
theorem Stands.valueOperand_eq (hn : src.func.Naming) (h : Context.Ready src.func c) {x : Value}
    (hx : src.func.values[v]? = some x) {o : Operand} (hs : Stands src v o) :
    valueOperand src c i v = .ok o := by
  obtain ⟨d, hd, -, -, hconst, -⟩ := exists_definition h hx
  simp only [valueOperand, ite_eq_iff, Except.bind_eq_ok, liftFault_eq_ok, hd, Except.pure_eq_ok,
    Except.ok.injEq, exists_eq_left', hconst]
  cases hs with
  | reg hv ha =>
    have hs : Stands src v (.reg (src.func.regOf v)) := .reg hv ha
    exact .inr ⟨hs.produced hn hx, _, hs.regOperand_eq hn h hx, rfl⟩
  | imm hx' hu ht hbits himm =>
    cases hx.symm.trans hx'
    exact .inl ⟨hu, _, (immOperand_eq_ok h hx).2 ⟨_, _, ht, hbits, himm⟩, rfl⟩

/-! ### Operations -/

/-- A comparison of a register with a register or a constant. -/
structure Comparable (src : Source) (c : Context) (i : InstrId) (p : Predicate) (x y : ValueId)
    (cmp : Comparison) : Prop where
  form : comparison src c i p x y = .ok cmp
  left : Fits src cmp.x
  produced : Produced src.func cmp.x
  right : Fits src cmp.y

/-- A comparison is made of the two values, in one order or the other. -/
theorem mem_of_comparison {p : Predicate} {x y : ValueId} {cmp : Comparison}
    (h : comparison src c i p x y = .ok cmp) : cmp.x ∈ [x, y] ∧ cmp.y ∈ [x, y] := by
  cases (comparison_eq_ok h).2 <;> simp

/-- The value is the address of a slot. -/
def IsSlot (f : Func) (addr : ValueId) : Prop :=
  ∃ j ∈ f.inserted, f.values[addr]? = some (.result j) ∧ f.isAlloca j = true

/-- The operations that are lowered, as the operations of instruction `i` of block `b`. -/
inductive Supported (src : Source) (c : Context) (b : BlockId) (i : InstrId) : Operation → Prop
  | alloca {t e : TypeId} {n : UInt64} {a : UInt32} : Supported src c b i (.alloca t e n a)
  | phi {t : TypeId} {incoming incs : List (ValueId × BlockId)}
      (ht : RegClass.ofType src.types t = .int) (hincs : incomings src i incoming = .ok incs)
      (hin : ∀ inc ∈ incs, Fits src inc.1) : Supported src c b i (.phi t incoming)
  | load {t : TypeId} {addr : ValueId} (ht : src.types.isInt t 32 = true)
      (haddr : IsSlot src.func addr) : Supported src c b i (.load t addr)
  | store {w addr : ValueId} (hw : src.isWord w = true) (haddr : IsSlot src.func addr)
      (hfits : Fits src w) : Supported src c b i (.store w addr)
  | binary {o : BinaryOp} {t : TypeId} {x y : ValueId} {ops : Opcode × Opcode}
      (hop : binaryOpcodes o = some ops) (ht : src.types.isInt t 32 = true) (hx : Fits src x)
      (hprod : Produced src.func x) (hy : Fits src y) : Supported src c b i (.binary o t x y)
  | icmp {p : Predicate} {t : TypeId} {x y : ValueId} {cmp : Comparison}
      (hcmp : Comparable src c i p x y cmp) : Supported src c b i (.icmp p t x y)
  | br {target : BlockId} : Supported src c b i (.br target)
  /-- The condition is a comparison of the same block. -/
  | condBr {cond x y : ValueId} {l r : BlockId} {j : InstrId} {p : Predicate} {t : TypeId}
      (hcond : src.func.values[cond]? = some (.result j)) (hj : src.func.blockOf j = some b)
      (hop : src.func.opOf j = some (.icmp p t x y)) : Supported src c b i (.condBr cond l r)
  | ret {w : ValueId} (hw : src.isWord w = true) (hfits : Fits src w) :
      Supported src c b i (.ret (some w))

/-- All instructions of a function are supported. -/
def Supports (src : Source) (c : Context) : Prop :=
  ∀ ⦃b i op⦄, i ∈ src.func.instrsOf b → src.func.opOf i = some op → Supported src c b i op

/-- A well-formed function of regular shape, with a context that is set up for it. -/
structure Eligible (src : Source) (c : Context) : Prop where
  consistent : src.func.Consistent
  interned : src.types.Interned
  wellFormed : src.func.WellFormed
  regular : src.func.Regular
  ready : Context.Ready src.func c

theorem Eligible.exists_value (he : Eligible src c) (hi : i ∈ src.func.instrsOf b)
    (hop : src.func.opOf i = some op) (hv : v ∈ op.args) : ∃ x, src.func.values[v]? = some x :=
  ⟨_, Array.getElem?_eq_getElem (Func.operandsExist_of_users he.ready.users i
    (Func.mem_inserted.2 ⟨b, hi⟩) op hop v hv)⟩

theorem Eligible.block_eq (he : Eligible src c) (hi : i ∈ src.func.instrsOf b)
    (hins : src.func.instrs[i]? = some ins) : ins.block = some b := by
  simpa [Func.blockOf, hins] using he.consistent.mem_instrsOf.1 hi

/-- The result of an instruction whose values live in registers lives in one. -/
theorem Eligible.inRegister_result (he : Eligible src c) (hi : i ∈ src.func.inserted)
    (hins : src.func.instrs[i]? = some ins) (ht : RegClass.ofType src.types ins.type = .int) :
    src.func.InRegister ins.result :=
  Func.inRegister_result hi hins (he.interned.ne_of_ofType ht)

/-- If all instructions are supported, an operand that is no constant lives in a register. -/
theorem Supports.inRegister (hs : Supports src c) (he : Eligible src c)
    (hi : i ∈ src.func.instrsOf b) (hop : src.func.opOf i = some op) (hv : v ∈ op.args)
    (hcode : op.opcode ≠ .condBr) (hfits : Fits src v) {x : Value}
    (hx : src.func.values[v]? = some x) : Unproduced src.func v x ∨ src.func.InRegister v := by
  have hn := he.consistent.toNaming
  cases x with
  | absent | const => exact .inl ⟨rfl, rfl⟩
  | arg n t => exact .inr (Func.inRegister_param (List.mem_of_getElem? (hn.arg_param hx)))
  | result j =>
    by_cases hj : j ∈ src.func.inserted
    · refine .inr ?_
      obtain ⟨ins, hins, rfl⟩ := hn.value_result hx
      obtain ⟨d, hd⟩ := Func.mem_inserted.1 hj
      obtain ⟨op', hop'⟩ := Option.isSome_iff_exists.1
        (he.consistent.isSome_opOf (he.consistent.mem_instrsOf.1 hd))
      have hmem : i ∈ src.func.inserted := Func.mem_inserted.2 ⟨b, hi⟩
      have htype : ins.type = op'.type := by
        have hinsop : ins.op = some op' := by simpa [Func.opOf, hins] using hop'
        simp [Codegen.Instr.type, hinsop]
      have hyield : op'.type ≠ TypeId.void :=
        he.regular.yields i hmem op hop _ hv j (by simp [hx, Value.instr?]) op' hop'
      cases hs hd hop' with
      | alloca =>
        have hplain := hfits.plain hx hj
        simp [Func.isAlloca, hop'] at hplain
      | phi ht => exact he.inRegister_result hj hins (htype ▸ ht)
      | load ht => exact he.inRegister_result hj hins (htype ▸ TypeTable.ofType_of_isInt ht)
      | binary _ ht => exact he.inRegister_result hj hins (htype ▸ TypeTable.ofType_of_isInt ht)
      | icmp =>
        obtain ⟨⟨_, _, rfl⟩, -⟩ := (he.regular.comparisons.reads hn hx hj hop').2 i hmem op hop hv
        exact absurd rfl hcode
      | store | br | condBr | ret => exact absurd rfl hyield
    · exact .inl (unproduced_result.2 hj)

theorem Supports.exists_stands (hs : Supports src c) (he : Eligible src c)
    (hi : i ∈ src.func.instrsOf b) (hop : src.func.opOf i = some op) (hv : v ∈ op.args)
    (hcode : op.opcode ≠ .condBr) (hfits : Fits src v) : ∃ o, Stands src v o := by
  obtain ⟨x, hx⟩ := he.exists_value hi hop hv
  rcases hs.inRegister he hi hop hv hcode hfits hx with hu | hreg
  · obtain ⟨t, bits, imm, ht, hbits, himm⟩ := hfits.imm hx hu
    exact ⟨_, .imm hx hu ht hbits himm⟩
  · exact ⟨_, hfits.stands_reg he.consistent.toNaming hreg⟩

/-- An operand that fits can be asked for, whoever asks. -/
theorem Supports.exists_valueOperand (hs : Supports src c) (he : Eligible src c)
    (hi : i ∈ src.func.instrsOf b) (hop : src.func.opOf i = some op) (hv : v ∈ op.args)
    (hcode : op.opcode ≠ .condBr) (hfits : Fits src v) (k : InstrId) :
    ∃ o, Stands src v o ∧ valueOperand src c k v = .ok o := by
  obtain ⟨x, hx⟩ := he.exists_value hi hop hv
  obtain ⟨o, ho⟩ := hs.exists_stands he hi hop hv hcode hfits
  exact ⟨o, ho, ho.valueOperand_eq he.consistent.toNaming he.ready hx⟩

theorem Supports.regOperand_eq (hs : Supports src c) (he : Eligible src c)
    (hi : i ∈ src.func.instrsOf b) (hop : src.func.opOf i = some op) (hv : v ∈ op.args)
    (hcode : op.opcode ≠ .condBr) (hfits : Fits src v) (hprod : Produced src.func v)
    (k : InstrId) : regOperand src c k v = .ok (src.func.regOf v) := by
  obtain ⟨x, hx⟩ := he.exists_value hi hop hv
  have hreg := (hs.inRegister he hi hop hv hcode hfits hx).resolve_left (hprod hx)
  exact (hfits.stands_reg he.consistent.toNaming hreg).regOperand_eq he.consistent.toNaming
    he.ready hx

/-! ### Supported instructions are selected -/

theorem requireInt32_of_isInt {t : TypeId} (h : src.types.isInt t 32 = true) :
    requireInt32 src i t = .ok () := by
  simp [requireInt32, h, pure, Except.pure]

theorem requireInt32_of_isWord (h : src.isWord v = true) :
    ∃ t, src.func.valueType v = .ok t ∧ requireInt32 src i t = .ok () := by
  unfold Source.isWord at h
  split at h
  · next t ht => exact ⟨t, ht, requireInt32_of_isInt h⟩
  · cases h

theorem IsSlot.exists_slot (h : IsSlot src.func v) (hr : Context.Ready src.func c) :
    ∃ s, c.slot? v = some s := by
  obtain ⟨j, hj, hv, ha⟩ := h
  refine ⟨src.func.slotOf j, ?_⟩
  rw [hr.slot, hv]
  simp [Value.producerIn, hj, ha, Func.slotOf]

theorem IsSlot.exists_slotOperand (h : IsSlot src.func v) (hr : Context.Ready src.func c) :
    ∃ s, slotOperand src c i v = .ok s := by
  obtain ⟨s, hs⟩ := h.exists_slot hr
  exact ⟨s, by rw [slotOperand, hs]; rfl⟩

/-- The register of a result can be asked for, and the context stays as it is. -/
theorem Eligible.outputReg_eq (he : Eligible src c) (hi : i ∈ src.func.inserted)
    (hins : src.func.instrs[i]? = some ins) (ht : RegClass.ofType src.types ins.type = .int) :
    Context.outputReg src.func i ins.type c = .ok (src.func.regOf ins.result) c := by
  have hv := he.inRegister_result hi hins ht
  have hres : ins.hasResult = true := he.interned.ne_of_ofType ht
  obtain ⟨d, hd, -, hinstr, -, hreg⟩ := exists_definition he.ready (he.consistent.result_value hins)
  have hprod : c.isProducer src.func i d = true := by
    simp [Context.isProducer, hinstr, Value.producerIn, hi, he.ready.owner]
  have hresult : c.resultReg src.func i = .ok (src.func.regOf ins.result) := by
    simp [Context.resultReg, Except.bind_eq_ok, liftFault_eq_ok, Func.instr_eq_ok.2 hins, hres, hd,
      hprod, hreg, Except.pure_eq_ok]
  simp only [Context.outputReg, EStateM.bind_eq_ok, EStateM.get_eq_ok]
  refine ⟨c, c, ⟨rfl, rfl⟩, ?_⟩
  simp only [hresult, he.ready.type_result he.consistent.toNaming hins hv, if_true]
  rfl

/-- The result of a comparison is recognized as one. -/
theorem icmp?_of_icmp (he : Eligible src c) (hv : src.func.values[v]? = some (.result j))
    (hj : src.func.blockOf j = some b) {p : Predicate} {t : TypeId} {x y : ValueId}
    (hop : src.func.opOf j = some (.icmp p t x y)) :
    icmp? src c v = .ok (some (j, p, x, y)) := by
  obtain ⟨d, hd, -, hinstr, -⟩ := exists_definition he.ready hv
  obtain ⟨ins, hins, hinsop⟩ := Option.bind_eq_some_iff.1 hop
  have hin : j ∈ src.func.inserted :=
    Func.mem_inserted.2 ⟨b, he.consistent.mem_instrsOf.2 hj⟩
  simp [icmp?, hd, hinstr, Value.producerIn, hin, Except.bind_eq_ok, Func.instr_eq_ok.2 hins,
    hinsop, Except.pure_eq_ok]

theorem length_of_incomings (hins : src.func.instrs[i]? = some ins) (hb : ins.block = some b)
    {incoming incs : List (ValueId × BlockId)} (h : incomings src i incoming = .ok incs) :
    incoming.length = (src.func.predsOf b).length := by
  simp only [incomings, Except.bind_eq_ok, liftFault_eq_ok, Func.instr_eq_ok, hins,
    Option.some.injEq, exists_eq_left', hb, Except.pure_eq_ok, ite_eq_iff, Except.throw_ne_ok,
    false_and, and_false, exists_false, false_or] at h
  obtain ⟨blk, hblk, hlength, -⟩ := h
  rw [Func.preds_eq_predsOf (Func.block_eq_ok.1 hblk)]
  exact not_not.1 hlength

section Rules

variable (hs : Supports src c) (he : Eligible src c) (hi : i ∈ src.func.instrsOf b)

include he hi

theorem exists_selectLoad (hins : src.func.instrs[i]? = some ins) {t : TypeId} {addr : ValueId}
    (htype : ins.type = t) (ht : src.types.isInt t 32 = true) (haddr : IsSlot src.func addr) :
    ∃ code, selectLoad src i t addr c = .ok code c := by
  subst htype
  obtain ⟨s, hslot⟩ := haddr.exists_slotOperand he.ready
  have hout := he.outputReg_eq (Func.mem_inserted.2 ⟨b, hi⟩) hins (TypeTable.ofType_of_isInt ht)
  simp only [selectLoad, EStateM.bind_eq_ok, EStateM.get_eq_ok, liftStop_eq_ok, liftFaultStop_eq_ok,
    EStateM.pure_eq_ok]
  exact ⟨_, c, c, ⟨rfl, rfl⟩, (), c, ⟨requireInt32_of_isInt ht, rfl⟩, s, c, ⟨hslot, rfl⟩, _, c,
    hout, _, c, ⟨rfl, rfl⟩, rfl, rfl⟩

include hs

theorem exists_selectStore {w addr : ValueId} (hop : src.func.opOf i = some (.store w addr))
    (hw : src.isWord w = true) (haddr : IsSlot src.func addr) (hfits : Fits src w) :
    ∃ code, selectStore src c i w addr = .ok code := by
  obtain ⟨t, ht, hint⟩ := requireInt32_of_isWord hw
  obtain ⟨s, hslot⟩ := haddr.exists_slotOperand he.ready
  obtain ⟨o, ho, hvalue⟩ := hs.exists_valueOperand he hi hop List.mem_cons_self
    (by simp [Operation.opcode]) hfits i
  simp only [selectStore, Except.bind_eq_ok, liftFault_eq_ok]
  cases ho <;> exact ⟨_, t, ht, (), hint, s, hslot, _, hvalue, rfl⟩

theorem exists_selectBinary (hins : src.func.instrs[i]? = some ins) {o : BinaryOp} {t : TypeId}
    {x y : ValueId} (hop : src.func.opOf i = some (.binary o t x y)) (htype : ins.type = t)
    {ops : Opcode × Opcode} (hops : binaryOpcodes o = some ops) (ht : src.types.isInt t 32 = true)
    (hx : Fits src x) (hprod : Produced src.func x) (hy : Fits src y) :
    ∃ code, selectBinary src i o t x y c = .ok code c := by
  subst htype
  have hcode : (Operation.binary o ins.type x y).opcode ≠ .condBr := by simp [Operation.opcode]
  have hlhs := hs.regOperand_eq he hi hop (by simp [Operation.args]) hcode hx hprod i
  obtain ⟨rhs, hrhs, hvalue⟩ :=
    hs.exists_valueOperand he hi hop (by simp [Operation.args]) hcode hy i
  have hout := he.outputReg_eq (Func.mem_inserted.2 ⟨b, hi⟩) hins (TypeTable.ofType_of_isInt ht)
  obtain ⟨rr, ri⟩ := ops
  simp only [selectBinary, hops, EStateM.bind_eq_ok, EStateM.get_eq_ok, liftStop_eq_ok,
    liftFaultStop_eq_ok]
  cases o <;> cases hops <;> cases hrhs <;>
    exact ⟨_, c, c, ⟨rfl, rfl⟩, (), c, ⟨requireInt32_of_isInt ht, rfl⟩, _, c, ⟨hlhs, rfl⟩, _, c,
      ⟨hvalue, rfl⟩, _, c, hout, _, c, ⟨rfl, rfl⟩, rfl⟩

theorem exists_selectRet {w : ValueId} (hop : src.func.opOf i = some (.ret (some w)))
    (hw : src.isWord w = true) (hfits : Fits src w) :
    ∃ code, selectRet src c i (some w) = .ok code := by
  obtain ⟨t, ht, hint⟩ := requireInt32_of_isWord hw
  obtain ⟨o, ho, hvalue⟩ := hs.exists_valueOperand he hi hop (by simp [Operation.args])
    (by simp [Operation.opcode]) hfits i
  simp only [selectRet, Except.bind_eq_ok, liftFault_eq_ok]
  cases ho <;> exact ⟨_, t, ht, (), hint, _, hvalue, rfl⟩

/-- A conditional branch looks at the comparison that it reads. -/
theorem exists_selectCondBr {cond x y : ValueId} {l r : BlockId} {p : Predicate} {t : TypeId}
    (hop : src.func.opOf i = some (.condBr cond l r))
    (hcond : src.func.values[cond]? = some (.result j)) (hj : src.func.blockOf j = some b)
    (hjop : src.func.opOf j = some (.icmp p t x y)) :
    ∃ code, selectCondBr src c i cond l r = .ok code := by
  have hmem : j ∈ src.func.instrsOf b := he.consistent.mem_instrsOf.2 hj
  have hl : c.label l = .ok (l + 1) := he.ready.label_eq_ok.2
    ⟨he.consistent.target_lt hi hop (by simp [Operation.successors]), rfl⟩
  have hr : c.label r = .ok (r + 1) := he.ready.label_eq_ok.2
    ⟨he.consistent.target_lt hi hop (by simp [Operation.successors]), rfl⟩
  have hicmp := icmp?_of_icmp he hcond hj hjop
  cases hs hmem hjop with
  | @icmp _ _ _ _ cmp hcmp =>
    obtain ⟨hx, hy⟩ := mem_of_comparison hcmp.form
    have hcode : (Operation.icmp p t x y).opcode ≠ .condBr := by simp [Operation.opcode]
    have hlhs := hs.regOperand_eq he hmem hjop hx hcode hcmp.left hcmp.produced i
    obtain ⟨rhs, hrhs, hvalue⟩ := hs.exists_valueOperand he hmem hjop hy hcode hcmp.right i
    obtain ⟨jump, hjump⟩ := (comparison_eq_ok hcmp.form).2.exists_make (l + 1)
    cases hrhs <;>
      simp only [selectCondBr, hicmp, hcmp.form, hlhs, hvalue, hl, hr, hjump, Except.bind_eq_ok,
        liftFault_eq_ok, Except.ok.injEq, exists_eq_left', Except.pure_eq_ok] <;>
      exact ⟨_, _, rfl, _, rfl, rfl⟩

/-- A phi gets as many values as its block has predecessors, which is at least one. -/
theorem exists_selectPhi (hins : src.func.instrs[i]? = some ins) {t : TypeId}
    {incoming incs : List (ValueId × BlockId)} (hop : src.func.opOf i = some (.phi t incoming))
    (htype : ins.type = t) (ht : RegClass.ofType src.types t = .int)
    (hincs : incomings src i incoming = .ok incs) (hin : ∀ inc ∈ incs, Fits src inc.1) :
    ∃ code, selectPhi src i t incoming c = .ok code c := by
  subst htype
  have hb := he.block_eq hi hins
  have hout := he.outputReg_eq (Func.mem_inserted.2 ⟨b, hi⟩) hins ht
  have hfrom := incomings_eq_ok hins hb hincs
  have hexist : ∀ inc ∈ incoming, ∃ x, src.func.values[inc.1]? = some x := fun inc hinc =>
    he.exists_value hi hop (List.mem_map_of_mem hinc)
  obtain ⟨ops, hops⟩ : ∃ ops, incs.mapM (incomingOperands src c i) = .ok ops := by
    refine Except.exists_mapM_eq_ok fun inc hinc => ?_
    obtain ⟨p, hp, hpinc⟩ := exists_mem_of_forall₂ hfrom.flip hinc
    obtain ⟨hmem, rfl, -⟩ := incomingFrom_eq_ok hpinc
    have hargs : inc.1 ∈ (Operation.phi ins.type incoming).args := List.mem_map_of_mem hmem
    obtain ⟨o, -, ho⟩ := hs.exists_valueOperand he hi hop hargs (by simp [Operation.opcode])
      (hin inc hinc) i
    have hlabel := he.ready.label_eq_ok.2 ⟨he.consistent.pred_lt hp, rfl⟩
    refine ⟨[o, .label (inc.2 + 1)], ?_⟩
    rw [incomingOperands, ho, hlabel]
    rfl
  have hcomes := forall₂_comesIn he.ready hexist hfrom (Except.mapM_eq_ok.1 hops)
  obtain ⟨phi, hphi⟩ : ∃ phi,
      Instr.make .phi (.reg (src.func.regOf ins.result) :: ops.flatten) = .ok phi := by
    cases hmake : Instr.make .phi (.reg (src.func.regOf ins.result) :: ops.flatten) with
    | ok phi => exact ⟨phi, rfl⟩
    | error e =>
      have hpreds := (make_phi_eq_error hcomes hmake).1
      have hnil : incoming = [] := by
        have hlength := length_of_incomings hins hb hincs
        rwa [hpreds, List.length_nil, List.length_eq_zero_iff] at hlength
      have hargs := he.regular.fed i (Func.mem_inserted.2 ⟨b, hi⟩) _ hop rfl
      simp [Operation.args, hnil] at hargs
  simp only [selectPhi, ht, ne_eq, not_true_eq_false, if_false, EStateM.bind_eq_ok,
    EStateM.get_eq_ok, liftStop_eq_ok, liftFaultStop_eq_ok, EStateM.pure_eq_ok, phiOperands,
    Except.bind_eq_ok, Except.pure_eq_ok]
  exact ⟨_, _, c, hout, c, c, ⟨rfl, rfl⟩, _, c, ⟨⟨incs, hincs, ops, hops, rfl⟩, rfl⟩, phi, c,
    ⟨hphi, rfl⟩, rfl, rfl⟩

omit hs

theorem exists_selectIcmp (hins : src.func.instrs[i]? = some ins) {p : Predicate} {t : TypeId}
    {x y : ValueId} (hop : src.func.opOf i = some (.icmp p t x y)) :
    ∃ code, selectIcmp src c i ins.result = .ok code := by
  have hn := he.consistent.toNaming
  have hlt : ins.result < c.users.size := by
    rw [Func.size_users he.ready.users]
    exact (Array.getElem?_eq_some_iff.1 (hn.result_value hins)).1
  have hus := Array.getElem?_eq_getElem hlt
  have hreads := (he.regular.comparisons.reads hn (hn.result_value hins)
    (Func.mem_inserted.2 ⟨b, hi⟩) hop).2
  simp only [selectIcmp, Context.usersOf, hus, Except.bind_eq_ok, liftFault_eq_ok, Except.ok.injEq,
    exists_eq_left', Except.pure_eq_ok]
  refine ⟨[], (), Except.forM_eq_ok.2 fun u hu => Except.bind_eq_ok.2 ?_, rfl⟩
  obtain ⟨hin, op, huop, hv⟩ := Func.reads_of_users he.ready.users hus hu
  obtain ⟨⟨l, r, rfl⟩, -⟩ := hreads u hin op huop hv
  obtain ⟨user, huser, huop⟩ := Option.bind_eq_some_iff.1 huop
  exact ⟨user, liftFault_eq_ok.2 (Func.instr_eq_ok.2 huser),
    by simp [branchesOn, huop, pure, Except.pure]⟩

theorem exists_selectBr {target : BlockId} (hop : src.func.opOf i = some (.br target)) :
    ∃ code, selectBr c target = .ok code := by
  have hmem : target ∈ (Operation.br target).successors := by simp [Operation.successors]
  have hlt := he.consistent.target_lt hi hop hmem
  rw [selectBr, he.ready.label_eq_ok.2 ⟨hlt, rfl⟩]
  exact ⟨_, rfl⟩

theorem exists_slotFor (hins : src.func.instrs[i]? = some ins) {t e : TypeId} {n : UInt64}
    {a : UInt32} (hop : src.func.opOf i = some (.alloca t e n a)) :
    ∃ s, c.slotFor src.func i = .ok s := by
  have hslot : IsSlot src.func ins.result := ⟨i, Func.mem_inserted.2 ⟨b, hi⟩,
    he.consistent.result_value hins, by simp [Func.isAlloca, hop]⟩
  have hinsop : ins.op = some (.alloca t e n a) := by simpa [Func.opOf, hins] using hop
  obtain ⟨s, hs⟩ := hslot.exists_slot he.ready
  simp [Context.slotFor, Except.bind_eq_ok, liftFault_eq_ok, Func.instr_eq_ok.2 hins, hinsop, hs,
    Except.pure_eq_ok]

end Rules

/-- If all instructions are supported, each of them is selected. -/
theorem Supports.exists_select (hs : Supports src c) (he : Eligible src c)
    (hi : i ∈ src.func.instrsOf b) : ∃ code, select src i c = .ok code c := by
  obtain ⟨op, hop⟩ := Option.isSome_iff_exists.1
    (he.consistent.isSome_opOf (he.consistent.mem_instrsOf.1 hi))
  obtain ⟨ins, hins, hinsop⟩ := Option.bind_eq_some_iff.1 hop
  have htype : ins.type = op.type := by simp [Codegen.Instr.type, hinsop]
  simp only [select, EStateM.bind_eq_ok, EStateM.get_eq_ok, liftStop_eq_ok, liftFault_eq_ok,
    Func.instr_eq_ok, hins, Option.some.injEq, and_assoc, exists_and_left, exists_eq_left', hinsop]
  cases hs hi hop with
  | alloca =>
    obtain ⟨s, hslot⟩ := exists_slotFor he hi hins hop
    exact ⟨[], EStateM.bind_eq_ok.2 ⟨s, c, liftStop_eq_ok.2 ⟨hslot, rfl⟩, rfl⟩⟩
  | phi ht hincs hin => exact exists_selectPhi hs he hi hins hop htype ht hincs hin
  | load ht haddr => exact exists_selectLoad he hi hins htype ht haddr
  | store hw haddr hfits =>
    obtain ⟨code, hcode⟩ := exists_selectStore hs he hi hop hw haddr hfits
    exact ⟨code, liftStop_eq_ok.2 ⟨hcode, rfl⟩⟩
  | binary hops ht hx hprod hy =>
    exact exists_selectBinary hs he hi hins hop htype hops ht hx hprod hy
  | icmp =>
    obtain ⟨code, hcode⟩ := exists_selectIcmp he hi hins hop
    exact ⟨code, liftStop_eq_ok.2 ⟨hcode, rfl⟩⟩
  | br =>
    obtain ⟨code, hcode⟩ := exists_selectBr he hi hop
    exact ⟨code, liftStop_eq_ok.2 ⟨hcode, rfl⟩⟩
  | condBr hcond hj hjop =>
    obtain ⟨code, hcode⟩ := exists_selectCondBr hs he hi hop hcond hj hjop
    exact ⟨code, liftStop_eq_ok.2 ⟨hcode, rfl⟩⟩
  | ret hw hfits =>
    obtain ⟨code, hcode⟩ := exists_selectRet hs he hi hop hw hfits
    exact ⟨code, liftStop_eq_ok.2 ⟨hcode, rfl⟩⟩

/-! ### Instructions that are selected are supported -/

/-- Only phis of a type whose values live in registers are selected. -/
theorem supported_of_selectPhi (he : Eligible src c) (hi : i ∈ src.func.instrsOf b) {t : TypeId}
    {incoming : List (ValueId × BlockId)} (hop : src.func.opOf i = some (.phi t incoming))
    {code : List Instr} (hsel : selectPhi src i t incoming c = .ok code c') :
    Supported src c b i (.phi t incoming) := by
  obtain ⟨ins, hins, hinsop⟩ := Option.bind_eq_some_iff.1 hop
  have hb := he.block_eq hi hins
  obtain rfl : ins.type = t := by simp [Codegen.Instr.type, hinsop, Operation.type]
  unfold selectPhi at hsel
  split at hsel
  · simp [EStateM.bind_eq_ok, EStateM.throw_ne_ok] at hsel
  next ht =>
  simp only [EStateM.bind_eq_ok, EStateM.get_eq_ok, liftStop_eq_ok] at hsel
  obtain ⟨r, c₁, hout, _, _, ⟨rfl, rfl⟩, ops, _, ⟨hops, -⟩, -⟩ := hsel
  obtain ⟨rfl, -⟩ := outputReg_eq_ok he.consistent he.ready hins hout
  simp only [phiOperands, Except.bind_eq_ok, Except.pure_eq_ok, Except.mapM_eq_ok] at hops
  obtain ⟨incs, hincs, ops, hops, -⟩ := hops
  refine .phi (not_not.1 ht) hincs fun inc hinc => ?_
  obtain ⟨p, -, hp⟩ := exists_mem_of_forall₂ (incomings_eq_ok hins hb hincs).flip hinc
  obtain ⟨x, hx⟩ := he.exists_value hi hop (List.mem_map_of_mem (incomingFrom_eq_ok hp).1)
  obtain ⟨os, -, hos⟩ := exists_mem_of_forall₂ hops hinc
  obtain ⟨o, ho, -⟩ := Except.bind_eq_ok.1 hos
  exact (valueOperand_eq_ok he.ready hx ho).fits he.consistent.toNaming

/-- A conditional branch that is selected reads a comparison that can be made. -/
theorem exists_comparable (he : Eligible src c) {cond : ValueId} {l r : BlockId} {v : Value}
    (hv : src.func.values[cond]? = some v) {code : List Instr}
    (hsel : selectCondBr src c i cond l r = .ok code) :
    ∃ j p t x y cmp, src.func.values[cond]? = some (.result j) ∧ j ∈ src.func.inserted ∧
      src.func.opOf j = some (.icmp p t x y) ∧ Comparable src c j p x y cmp := by
  have hn := he.consistent.toNaming
  simp only [selectCondBr, Except.bind_eq_ok, liftFault_eq_ok] at hsel
  obtain ⟨cmp?, hicmp, hsel⟩ := hsel
  cases cmp? with
  | none => simp [Except.bind_eq_ok, Except.throw_ne_ok] at hsel
  | some found =>
    obtain ⟨j, p, x, y⟩ := found
    obtain ⟨hcond, hj, t, hop⟩ := icmp?_eq_ok he.ready hv hicmp
    simp only [Except.bind_eq_ok] at hsel
    obtain ⟨cmp, hcmp, lhs, hlhs, o, ho, -⟩ := hsel
    obtain ⟨hx, hy⟩ := mem_of_comparison hcmp
    obtain ⟨d, hd⟩ := Func.mem_inserted.1 hj
    obtain ⟨_, hvx⟩ := he.exists_value hd hop hx
    obtain ⟨_, hvy⟩ := he.exists_value hd hop hy
    have hstands := (regOperand_eq_ok he.ready hvx hlhs).2
    exact ⟨j, p, t, x, y, cmp, hcond, hj, hop, hcmp, hstands.fits hn, hstands.produced hn,
      (valueOperand_eq_ok he.ready hvy ho).fits hn⟩

/-- What was selected for an instruction with an operation was selected by the rule for it. -/
theorem rule_of_select (hop : src.func.opOf i = some op) {code : List Instr}
    (hsel : select src i c = .ok code c') :
    (∀ t incoming, op = .phi t incoming → selectPhi src i t incoming c = .ok code c') ∧
    ∀ cond l r, op = .condBr cond l r → selectCondBr src c i cond l r = .ok code := by
  obtain ⟨ins, hins, hinsop⟩ := Option.bind_eq_some_iff.1 hop
  simp only [select, EStateM.bind_eq_ok, EStateM.get_eq_ok, liftStop_eq_ok, liftFault_eq_ok,
    Func.instr_eq_ok, hins, Option.some.injEq, and_assoc, exists_and_left, exists_eq_left',
    hinsop] at hsel
  refine ⟨?_, ?_⟩
  · rintro t incoming rfl
    exact hsel
  · rintro cond l r rfl
    exact (liftStop_eq_ok.1 hsel).1

/-- If all instructions are selected, all of them are supported. A comparison is not looked at when
it is selected, but by the branch that reads it. -/
theorem supports_of_select (he : Eligible src c)
    (h : ∀ i ∈ src.func.inserted, ∃ code c', select src i c = .ok code c') : Supports src c := by
  have hn := he.consistent.toNaming
  intro b i op hi hop
  have hin : i ∈ src.func.inserted := Func.mem_inserted.2 ⟨b, hi⟩
  obtain ⟨ins, hins, hinsop⟩ := Option.bind_eq_some_iff.1 hop
  obtain ⟨code, c', hsel⟩ := h i hin
  obtain ⟨rfl, op', hop', hselected⟩ := select_eq_ok he.consistent he.ready hi hins hsel
  cases hinsop.symm.trans hop'
  cases hselected with
  | alloca => exact .alloca
  | phi => exact supported_of_selectPhi he hi hop ((rule_of_select hop hsel).1 _ _ rfl)
  | load ht haddr hj _ _ hin => exact .load ht ⟨_, hin, haddr, hj⟩
  | store hw haddr hj ho _ hin => exact .store hw ⟨_, hin, haddr, hj⟩ (ho.fits hn)
  | binary hops ht hx ho => exact .binary hops ht (hx.fits hn) (hx.produced hn) (ho.fits hn)
  | br => exact .br
  | ret hw ho => exact .ret hw (ho.fits hn)
  | condBr =>
    obtain ⟨x, hx⟩ := he.exists_value hi hop (List.mem_singleton_self _)
    obtain ⟨j, p, t, x, y, cmp, hcond, hj, hjop, -⟩ :=
      exists_comparable he hx ((rule_of_select hop hsel).2 _ _ _ rfl)
    have hblock := ((he.regular.comparisons.reads hn hcond hj hjop).2 i hin _ hop
      (List.mem_singleton_self _)).2
    exact .condBr hcond (hblock.symm.trans (he.consistent.mem_instrsOf.1 hi)) hjop
  | icmp =>
    have hresult := hn.result_value hins
    obtain ⟨⟨u, hu, uop, huop, hv⟩, hall⟩ := he.regular.comparisons.reads hn hresult hin hop
    obtain ⟨⟨l, r, rfl⟩, -⟩ := hall u hu uop huop hv
    obtain ⟨ucode, _, husel⟩ := h u hu
    obtain ⟨j, p, t, x, y, cmp, hcond, -, hjop, hcmp⟩ :=
      exists_comparable he hresult ((rule_of_select huop husel).2 _ _ _ rfl)
    cases hresult.symm.trans hcond
    cases hop.symm.trans hjop
    exact .icmp hcmp

end X86

end Codegen
