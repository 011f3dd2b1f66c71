import Codegen.Proofs.Progress
import Codegen.Proofs.Support
import Codegen.Proofs.Upkeep

/-!
# Supported instructions are converted

A conversion that ends has passed all the checks that it makes, so that its instruction is
supported. The other way round, the conversion of a supported instruction asks only for what a
builder can supply: leaves for operands from elsewhere, and the nodes of instructions that stand
before it in its block. Since a value is defined before it is used, no instruction is asked for
while its own conversion is in progress, and the number of conversions in progress is bounded by
the number of instructions before.

## Main definitions

* `X86.Vetted`: a builder that has converted only supported instructions.

## Main results

* `X86.supported_of_run`: an instruction that is converted is supported.
* `X86.Supports.proceeds`: the conversion of a supported instruction proceeds.
* `X86.Supports.exists_convert`: a supported instruction is converted.
-/

namespace Codegen.X86

variable {src : Source} {c : Context} {b : BlockId} {i j : InstrId} {v : ValueId}
  {op : Operation} {ins : Codegen.Instr} {s s' t : Builder Opcode}

/-! ### Instructions that are converted are supported -/

section Run

variable {visit : InstrId → Builder.Build Opcode NodeRef}

/-- A value for which there is a node fits, and the node says whether it is a constant. -/
theorem fits_of_run (hr : Context.Ready src.func c) {x : Value}
    (hx : src.func.values[v]? = some x) {leaf : Bool} {a : NodeRef × Bool}
    (h : Builder.runConversion src visit (valueNode src c i v leaf) s = .ok a s') :
    Fits src v ∧ (a.2 = true ↔ Unproduced src.func v x) := by
  obtain ⟨d, hd, -, -, hconst, -⟩ := exists_definition hr hx
  simp only [valueNode, Builder.run_ite, Builder.run_bind, Builder.run_lift, Builder.run_throw,
    Builder.run_pure, liftFault_eq_ok, hd, false_and, and_false, exists_false, false_or] at h
  obtain ⟨hslot, _, _, ⟨hd', rfl⟩, h⟩ := h
  cases hd'
  have hplain {j : InstrId} (hj : src.func.values[v]? = some (.result j))
      (hin : j ∈ src.func.inserted) : src.func.isAlloca j = false :=
    isAlloca_of_slot?_eq_none hr (by simpa using hslot) hj hin
  rcases h with ⟨hc, imm, _, ⟨himm, rfl⟩, h⟩ | ⟨hc, h⟩
  · refine ⟨⟨hplain, fun hx' _ => ?_⟩, ?_⟩
    · obtain ⟨t, bits, ht, hbits, himm⟩ := (immOperand_eq_ok hr hx').1 himm
      exact ⟨t, bits, imm, ht, hbits, himm⟩
    · rcases h with ⟨-, _, _, -, rfl, -⟩ | ⟨-, _, _, -, rfl, -⟩ <;> exact hconst
  · refine ⟨⟨hplain, fun hx' hu => ?_⟩, ?_⟩
    · cases hx.symm.trans hx'
      exact absurd (hconst.2 hu) hc
    · rcases h with ⟨-, _, _, -, rfl, -⟩ | ⟨-, _, _, -, rfl, -⟩ <;> exact hconst

theorem produced_of_run (hr : Context.Ready src.func c) {x : Value}
    (hx : src.func.values[v]? = some x) {r : NodeRef}
    (h : Builder.runConversion src visit (regNode src c i v) s = .ok r s') :
    Fits src v ∧ Produced src.func v := by
  simp only [regNode, Builder.run_ite, Builder.run_bind, Builder.run_lift, Builder.run_throw,
    Builder.run_pure, false_and, and_false, exists_false, false_or] at h
  obtain ⟨a, _, h, hconst, -⟩ := h
  obtain ⟨hfits, hiff⟩ := fits_of_run hr hx h
  refine ⟨hfits, fun hx' hu => ?_⟩
  cases hx.symm.trans hx'
  exact hconst (hiff.2 hu)

theorem isSlot_of_run (hr : Context.Ready src.func c) {r : NodeRef}
    (h : Builder.runConversion src visit (slotNode src c i v) s = .ok r s') :
    IsSlot src.func v := by
  simp only [slotNode, Builder.run_bind, Builder.run_lift] at h
  obtain ⟨sl, _, ⟨hslot, -⟩, -⟩ := h
  obtain ⟨j, hj, hin, ha, -⟩ := slot?_eq_some hr (slotOperand_eq_ok hslot)
  exact ⟨j, hin, hj, ha⟩

/-- The values that come into a phi are asked for one after the other. -/
theorem fits_of_run_mapM (hr : Context.Ready src.func c) {incs : List (ValueId × BlockId)}
    (hexist : ∀ inc ∈ incs, ∃ x, src.func.values[inc.1]? = some x) {args : List (List NodeRef)}
    (h : Builder.runConversion src visit (incs.mapM (incomingNodes src c i)) s = .ok args s') :
    ∀ inc ∈ incs, Fits src inc.1 := by
  induction incs generalizing s args with
  | nil => simp
  | cons inc incs ih =>
    obtain ⟨⟨x, hx⟩, hexist⟩ := List.forall_mem_cons.1 hexist
    obtain ⟨a, t, rest, ha, hrest, -⟩ := Builder.run_mapM_cons.1 h
    simp only [incomingNodes, Builder.run_bind] at ha
    obtain ⟨_, _, hvalue, -⟩ := ha
    exact List.forall_mem_cons.2 ⟨(fits_of_run hr hx hvalue).1, ih hexist hrest⟩

variable (he : Eligible src c) (hi : i ∈ src.func.instrsOf b)

include he hi

/-- A phi that is converted is supported. -/
theorem supported_of_run_phi {t : TypeId} {incoming : List (ValueId × BlockId)}
    (hop : src.func.opOf i = some (.phi t incoming)) {n : NodeId}
    (h : Builder.runConversion src visit (convertPhi src c i t incoming) s = .ok n s') :
    Supported src c b i (.phi t incoming) := by
  obtain ⟨ins, hins, -⟩ := Option.bind_eq_some_iff.1 hop
  simp only [convertPhi, Builder.run_ite, Builder.run_bind, Builder.run_lift, Builder.run_throw,
    false_and, and_false, exists_false, false_or] at h
  obtain ⟨ht, incs, _, ⟨hincs, rfl⟩, args, t₁, hnodes, -⟩ := h
  refine .phi (not_not.1 ht) hincs (fits_of_run_mapM he.ready (fun inc hinc => ?_) hnodes)
  obtain ⟨p, -, hp⟩ :=
    exists_mem_of_forall₂ (incomings_eq_ok hins (he.block_eq hi hins) hincs).flip hinc
  exact he.exists_value hi hop (List.mem_map_of_mem (incomingFrom_eq_ok hp).1)

/-- A store that is converted is supported. -/
theorem supported_of_run_store {w addr : ValueId} (hop : src.func.opOf i = some (.store w addr))
    {n : NodeId} (h : Builder.runConversion src visit (convertStore src c i w addr) s = .ok n s') :
    Supported src c b i (.store w addr) := by
  simp only [convertStore, Builder.run_bind, Builder.run_lift, liftFault_eq_ok] at h
  obtain ⟨t, _, ⟨ht, rfl⟩, _, _, ⟨hint, rfl⟩, _, _, hslot, _, _, hvalue, -⟩ := h
  obtain ⟨x, hx⟩ := he.exists_value hi hop (v := w) (by simp [Operation.args])
  exact .store (isWord_of_valueType ht (requireInt32_eq_ok hint)) (isSlot_of_run he.ready hslot)
    (fits_of_run he.ready hx hvalue).1

/-- A sum or a difference that is converted is supported. -/
theorem supported_of_run_binary {o : BinaryOp} {t : TypeId} {x y : ValueId}
    (hop : src.func.opOf i = some (.binary o t x y)) {n : NodeId}
    (h : Builder.runConversion src visit (convertBinary src c i o t x y) s = .ok n s') :
    Supported src c b i (.binary o t x y) := by
  unfold convertBinary at h
  cases hops : binaryOpcodes o with
  | none =>
    rw [hops] at h
    exact absurd h Builder.run_throw
  | some ops =>
    simp only [hops, Builder.run_bind, Builder.run_lift] at h
    obtain ⟨_, _, ⟨hint, rfl⟩, _, _, hlhs, _, _, hrhs, -⟩ := h
    obtain ⟨_, hx⟩ := he.exists_value hi hop (v := x) (by simp [Operation.args])
    obtain ⟨_, hy⟩ := he.exists_value hi hop (v := y) (by simp [Operation.args])
    obtain ⟨hfits, hprod⟩ := produced_of_run he.ready hx hlhs
    exact .binary hops (requireInt32_eq_ok hint) hfits hprod (fits_of_run he.ready hy hrhs).1

/-- A comparison that is converted is supported. -/
theorem supported_of_run_icmp {p : Predicate} {t : TypeId} {x y : ValueId}
    (hop : src.func.opOf i = some (.icmp p t x y)) {n : NodeId}
    (h : Builder.runConversion src visit (convertIcmp src c i p x y) s = .ok n s') :
    Supported src c b i (.icmp p t x y) := by
  simp only [convertIcmp, Builder.run_bind, Builder.run_lift] at h
  obtain ⟨cmp, _, ⟨hcmp, rfl⟩, _, _, hlhs, _, _, hrhs, -⟩ := h
  obtain ⟨hx, hy⟩ := mem_of_comparison hcmp
  obtain ⟨_, hx⟩ := he.exists_value hi hop hx
  obtain ⟨_, hy⟩ := he.exists_value hi hop hy
  obtain ⟨hfits, hprod⟩ := produced_of_run he.ready hx hlhs
  exact .icmp ⟨hcmp, hfits, hprod, (fits_of_run he.ready hy hrhs).1⟩

/-- A conditional branch that is converted has a comparison of its block as its condition. -/
theorem supported_of_run_condBr {cond : ValueId} {l r : BlockId}
    (hop : src.func.opOf i = some (.condBr cond l r)) {result : Conversion.Result}
    (h : Builder.runConversion src visit (convertCondBr src c i (some b) cond l r) s =
      .ok result s') : Supported src c b i (.condBr cond l r) := by
  obtain ⟨x, hx⟩ := he.exists_value hi hop (v := cond) (by simp [Operation.args])
  simp only [convertCondBr, Builder.run_bind, Builder.run_lift, liftFault_eq_ok] at h
  obtain ⟨cmp?, _, ⟨hicmp, rfl⟩, h⟩ := h
  cases cmp? with
  | none => simp [Builder.run_bind, Builder.run_throw] at h
  | some found =>
    obtain ⟨j, p, y, z⟩ := found
    obtain ⟨hcond, hj, t, hjop⟩ := icmp?_eq_ok he.ready hx hicmp
    simp only [Builder.run_bind, Builder.run_lift, liftFault_eq_ok, Func.instr_eq_ok,
      Builder.run_ite, Builder.run_throw, false_and, and_false, exists_false, false_or] at h
    obtain ⟨cins, _, ⟨hcins, rfl⟩, hblock, -⟩ := h
    refine .condBr hcond ?_ hjop
    rw [Func.blockOf, hcins, Option.bind_some, not_not.1 hblock]

/-- A return that is converted is supported. -/
theorem supported_of_run_ret {w : Option ValueId} (hop : src.func.opOf i = some (.ret w))
    {n : NodeId} (h : Builder.runConversion src visit (convertRet src c i w) s = .ok n s') :
    Supported src c b i (.ret w) := by
  cases w with
  | none => exact absurd h Builder.run_throw
  | some w =>
    simp only [convertRet, Builder.run_bind, Builder.run_lift, liftFault_eq_ok] at h
    obtain ⟨t, _, ⟨ht, rfl⟩, _, _, ⟨hint, rfl⟩, _, _, hvalue, -⟩ := h
    obtain ⟨x, hx⟩ := he.exists_value hi hop (v := w) (by simp [Operation.args])
    exact .ret (isWord_of_valueType ht (requireInt32_eq_ok hint)) (fits_of_run he.ready hx hvalue).1

/-- An instruction that is converted is supported. -/
theorem supported_of_run (hop : src.func.opOf i = some op) {result : Conversion.Result}
    (h : Builder.runConversion src visit (converter src c i) s = .ok result s') :
    Supported src c b i op := by
  obtain ⟨ins, hins, hinsop⟩ := Option.bind_eq_some_iff.1 hop
  simp only [converter, Builder.run_bind, Builder.run_lift, liftFault_eq_ok, Func.instr_eq_ok] at h
  obtain ⟨ins', _, ⟨hins', rfl⟩, h⟩ := h
  cases hins.symm.trans hins'
  rw [hinsop] at h
  cases op with
  | alloca => exact .alloca
  | phi t incoming =>
    obtain ⟨n, h, -⟩ := Builder.run_bind_pure.1 h
    exact supported_of_run_phi he hi hop h
  | load t addr =>
    obtain ⟨n, h, -⟩ := Builder.run_bind_pure.1 h
    simp only [convertLoad, Builder.run_bind, Builder.run_lift] at h
    obtain ⟨_, _, ⟨hint, rfl⟩, r, _, hslot, -⟩ := h
    exact .load (requireInt32_eq_ok hint) (isSlot_of_run he.ready hslot)
  | store w addr =>
    obtain ⟨n, h, -⟩ := Builder.run_bind_pure.1 h
    exact supported_of_run_store he hi hop h
  | binary o t x y =>
    obtain ⟨n, h, -⟩ := Builder.run_bind_pure.1 h
    exact supported_of_run_binary he hi hop h
  | icmp p t x y =>
    obtain ⟨n, h, -⟩ := Builder.run_bind_pure.1 h
    exact supported_of_run_icmp he hi hop h
  | br target => exact .br
  | condBr cond l r =>
    rw [he.block_eq hi hins] at h
    exact supported_of_run_condBr he hi hop h
  | ret w =>
    obtain ⟨n, h, -⟩ := Builder.run_bind_pure.1 h
    exact supported_of_run_ret he hi hop h
  | sext | zext | getElementPtr | call => exact absurd h Builder.run_throw

end Run

/-- A builder in a context that has converted only supported instructions. -/
structure Vetted (src : Source) (c : Context) (s : Builder Opcode) : Prop where
  context : s.context = c
  supported : ∀ {i result}, s.memo[i]? = some (.converted result) →
    ∀ {b op}, i ∈ src.func.instrsOf b → src.func.opOf i = some op → Supported src c b i op

theorem lasting_vetted (he : Eligible src c) :
    Builder.Lasting converter src (Vetted src c) := by
  refine ⟨fun _ h => ⟨h.context, h.supported⟩, fun _ h => ⟨h.context, h.supported⟩,
    fun {s} i h => ⟨h.context, fun {j result} hj => ?_⟩,
    fun {s t u visit i result} hs hrun hu => ⟨hu.context, fun {j result'} hj b op hb hop => ?_⟩⟩
  · by_cases hij : i = j
    · subst hij
      rw [Builder.remembered, Array.getElem?_setIfInBounds, if_pos rfl] at hj
      split at hj <;> cases hj
    · exact h.supported (Builder.memo_remembered_of_ne hij ▸ hj)
  · by_cases hij : i = j
    · subst hij
      rw [hs.context] at hrun
      exact supported_of_run he hb hop hrun
    · exact hu.supported (Builder.memo_remembered_of_ne hij ▸ hj) hb hop

/-! ### Supported instructions are converted -/

theorem Stands.exists_leafPayload (hn : src.func.Naming) (hr : Context.Ready src.func c) {x : Value}
    (hx : src.func.values[v]? = some x) {o : Operand} (h : Stands src v o) :
    ∃ payload : Payload Opcode, Builder.leafPayload src c v = .ok payload := by
  obtain ⟨d, hd, -, -, hconst, -⟩ := exists_definition hr hx
  have hslot := (h.fits hn).slot?_eq_none hr
  simp only [Builder.leafPayload, hslot, Except.bind_eq_ok, liftFault_eq_ok, hd, Except.ok.injEq,
    exists_eq_left', ite_eq_iff, hconst, Except.pure_eq_ok]
  cases h with
  | reg hv =>
    exact ⟨_, .inr ⟨produced_of_inRegister hn hv hx, _, valueReg_of_inRegister hr hx hv, rfl⟩⟩
  | imm hx' hu ht hbits =>
    cases hx.symm.trans hx'
    exact ⟨_, .inl ⟨hu, _, ht, _, hbits, rfl⟩⟩

theorem producer?_of_block (hcon : src.func.Coherent) (hr : Context.Ready src.func c)
    (hv : src.func.values[v]? = some (.result j)) (hslot : c.slot? v = none)
    (hj : src.func.blockOf j = some b) : Builder.producer? src c b v = .ok (some j) := by
  obtain ⟨d, hd, -, hinstr, -⟩ := exists_definition hr hv
  obtain ⟨ins, hins, hblock⟩ := Option.bind_eq_some_iff.1 hj
  have hin : j ∈ src.func.inserted := Func.mem_inserted.2 ⟨b, hcon.mem_instrsOf.2 hj⟩
  simp [Builder.producer?, hslot, Except.bind_eq_ok, liftFault_eq_ok, hd, hinstr, Value.producerIn,
    hin, Func.instr_eq_ok.2 hins, hblock, Except.pure_eq_ok]

theorem producer?_of_ne (hcon : src.func.Coherent) (hr : Context.Ready src.func c) {x : Value}
    (hv : src.func.values[v]? = some x) (hslot : c.slot? v = none)
    (hne : ∀ j, x = .result j → src.func.blockOf j ≠ some b) :
    Builder.producer? src c b v = .ok none := by
  obtain ⟨d, hd, -, hinstr, -⟩ := exists_definition hr hv
  simp only [Builder.producer?, hslot, Option.isSome_none, Bool.false_eq_true, if_false,
    Except.bind_eq_ok, liftFault_eq_ok, hd, Except.ok.injEq, exists_eq_left', hinstr]
  cases hp : x.producerIn src.func.inserted with
  | none => rfl
  | some j =>
    obtain ⟨rfl, hin⟩ := Context.producerIn_eq_some.1 hp
    obtain ⟨d, hd⟩ := Func.mem_inserted.1 hin
    obtain ⟨ins, hins⟩ : ∃ ins, src.func.instrs[j]? = some ins :=
      ⟨_, Array.getElem?_eq_getElem (Func.lt_instrs_of_mem hcon hd)⟩
    have hblock : ins.block ≠ some b := by
      simpa [Func.blockOf, hins] using hne j rfl
    simp [Except.bind_eq_ok, liftFault_eq_ok, Func.instr_eq_ok.2 hins, hblock, Except.pure_eq_ok]

/-- The address of a slot is a leaf. -/
theorem proceeds_slotNode (he : Eligible src c) {is : List InstrId} (h : IsSlot src.func v) :
    (slotNode src c i v).Proceeds (Builder.supply Opcode src c b is) fun _ => True := by
  obtain ⟨sl, hsl⟩ := h.exists_slot he.ready
  have hoperand : slotOperand src c i v = .ok sl := by
    rw [slotOperand, hsl]
    rfl
  have hgot : (Builder.supply Opcode src c b is).operand v := by
    refine .inr ⟨?_, .slot sl, ?_⟩
    · rw [Builder.producer?, hsl]
      rfl
    · rw [Builder.leafPayload, hsl]
      rfl
  simp [slotNode, hoperand, hgot]

theorem proceeds_convertLoad (he : Eligible src c) {is : List InstrId} {t : TypeId}
    (ht : src.types.isInt t 32 = true) (haddr : IsSlot src.func v) :
    (convertLoad src c i t v).Proceeds (Builder.supply Opcode src c b is) fun _ => True := by
  simp only [convertLoad, Conversion.proceeds_bind, Conversion.proceeds_lift]
  exact ⟨(), requireInt32_of_isInt ht, (proceeds_slotNode he haddr).imp fun _ _ _ => trivial⟩

section Proceeds

variable {before after : List InstrId} (hs : Supports src c) (he : Eligible src c)
  (hsplit : src.func.instrsOf b = before ++ i :: after)

include hsplit in
theorem mem_of_split : i ∈ src.func.instrsOf b := by
  rw [hsplit]
  exact List.mem_append_right _ List.mem_cons_self

include he hsplit

/-- An operand of an instruction is produced by an instruction before it, or it comes from
elsewhere. -/
theorem operand_supplied (hop : src.func.opOf i = some op) (hphi : op.isPhi = false)
    (hv : v ∈ op.args) (hslot : c.slot? v = none)
    (hleaf : (∀ j, src.func.values[v]? = some (.result j) → src.func.blockOf j ≠ some b) →
      ∃ payload : Payload Opcode, Builder.leafPayload src c v = .ok payload) :
    (Builder.supply Opcode src c b before).operand v := by
  have hi := mem_of_split hsplit
  obtain ⟨x, hx⟩ := he.exists_value hi hop hv
  by_cases hsame : ∃ j, src.func.values[v]? = some (.result j) ∧ src.func.blockOf j = some b
  · obtain ⟨j, hj, hblock⟩ := hsame
    have hreach := he.regular.reachable b (Func.lt_size_of_mem_instrsOf hi)
    obtain ⟨d, hd, hwhere⟩ :=
      he.wellFormed.uses b hreach before i after op hsplit hop hphi v hv j hj
    obtain rfl : b = d := Option.some.inj (hblock.symm.trans hd)
    have hbefore : j ∈ before := by simpa using hwhere
    exact .inl ⟨j, hbefore, producer?_of_block he.consistent he.ready hj hslot hblock⟩
  · have hne : ∀ j, src.func.values[v]? = some (.result j) → src.func.blockOf j ≠ some b :=
      fun j hj hblock => hsame ⟨j, hj, hblock⟩
    exact .inr ⟨producer?_of_ne he.consistent he.ready hx hslot fun j hj => hne j (hj ▸ hx),
      hleaf hne⟩

include hs

/-- The node for an operand that fits can be got, as a leaf or from its producer. -/
theorem proceeds_valueNode (hop : src.func.opOf i = some op) (hcode : op.opcode ≠ .condBr)
    (hv : v ∈ op.args) (hfits : Fits src v) {leaf : Bool} (hleaf : leaf = op.isPhi) {x : Value}
    (hx : src.func.values[v]? = some x) :
    (valueNode src c i v leaf).Proceeds (Builder.supply Opcode src c b before)
      fun a => a.2 = true → Unproduced src.func v x := by
  have hi := mem_of_split hsplit
  obtain ⟨d, hd, -, -, hconst, -⟩ := exists_definition he.ready hx
  have hslot := hfits.slot?_eq_none he.ready
  obtain ⟨o, ho⟩ := hs.exists_stands he hi hop hv hcode hfits
  have hpayload := ho.exists_leafPayload he.consistent.toNaming he.ready hx
  have hgot : leaf = false → (Builder.supply Opcode src c b before).operand v := by
    rintro rfl
    exact operand_supplied he hsplit hop hleaf.symm hv hslot fun _ => hpayload
  simp only [valueNode, hslot, Option.isSome_none, Bool.false_eq_true, if_false,
    Conversion.proceeds_bind, Conversion.proceeds_lift, liftFault_eq_ok, hd, Except.ok.injEq,
    exists_eq_left']
  by_cases hu : Unproduced src.func v x
  · obtain ⟨t, bits, imm, ht, hbits, himm⟩ := hfits.imm hx hu
    rw [if_pos (hconst.2 hu), Conversion.proceeds_bind, Conversion.proceeds_lift]
    refine ⟨imm, (immOperand_eq_ok he.ready hx).2 ⟨t, bits, ht, hbits, himm⟩, ?_⟩
    cases leaf with
    | true => exact ⟨hpayload, fun _ => hconst.1⟩
    | false => exact ⟨hgot rfl, fun _ => hconst.1⟩
  · rw [if_neg (mt hconst.1 hu)]
    cases leaf with
    | true => exact ⟨hpayload, fun _ => hconst.1⟩
    | false => exact ⟨hgot rfl, fun _ => hconst.1⟩

/-- The node for an operand that has to be a register. -/
theorem proceeds_regNode (hop : src.func.opOf i = some op) (hcode : op.opcode ≠ .condBr)
    (hphi : op.isPhi = false) (hv : v ∈ op.args) (hfits : Fits src v)
    (hprod : Produced src.func v) :
    (regNode src c i v).Proceeds (Builder.supply Opcode src c b before) fun _ => True := by
  obtain ⟨x, hx⟩ := he.exists_value (mem_of_split hsplit) hop hv
  rw [regNode, Conversion.proceeds_bind]
  refine (proceeds_valueNode hs he hsplit hop hcode hv hfits hphi.symm hx).imp fun a ha => ?_
  have hconst : ¬a.2 = true := fun h => hprod hx (ha h)
  simp [hconst]

/-- Two operands, the first of which has to be a register, can be got one after the other. -/
theorem proceeds_pair (hop : src.func.opOf i = some op) (hcode : op.opcode ≠ .condBr)
    (hphi : op.isPhi = false) {x y : ValueId} (hx : x ∈ op.args) (hy : y ∈ op.args)
    (hxfits : Fits src x) (hprod : Produced src.func x) (hyfits : Fits src y)
    {m : Bool → Opcode} :
    Conversion.Proceeds (Builder.supply Opcode src c b before) (fun _ => True)
      (do
        let lhs ← regNode src c i x
        let (rhs, isConst) ← valueNode src c i y false
        Conversion.makeInst (m isConst) [lhs, rhs]) := by
  obtain ⟨_, hvy⟩ := he.exists_value (mem_of_split hsplit) hop hy
  rw [Conversion.proceeds_bind]
  refine (proceeds_regNode hs he hsplit hop hcode hphi hx hxfits hprod).imp fun _ _ => ?_
  rw [Conversion.proceeds_bind]
  exact (proceeds_valueNode hs he hsplit hop hcode hy hyfits hphi.symm hvy).imp fun _ _ _ => trivial

theorem proceeds_convertPhi {t : TypeId} {incoming incs : List (ValueId × BlockId)}
    (hop : src.func.opOf i = some (.phi t incoming)) (ht : RegClass.ofType src.types t = .int)
    (hincs : incomings src i incoming = .ok incs) (hin : ∀ inc ∈ incs, Fits src inc.1) :
    (convertPhi src c i t incoming).Proceeds (Builder.supply Opcode src c b before)
      fun _ => True := by
  have hi := mem_of_split hsplit
  obtain ⟨ins, hins, hinsop⟩ := Option.bind_eq_some_iff.1 hop
  have hb := he.block_eq hi hins
  have hnodes : (incs.mapM (incomingNodes src c i)).Proceeds
      (Builder.supply Opcode src c b before) fun _ => True := by
    refine Conversion.proceeds_mapM fun inc hinc => ?_
    obtain ⟨p, hp, hpinc⟩ := exists_mem_of_forall₂ (incomings_eq_ok hins hb hincs).flip hinc
    obtain ⟨hmem, rfl, -⟩ := incomingFrom_eq_ok hpinc
    have hargs : inc.1 ∈ (Operation.phi t incoming).args := List.mem_map_of_mem hmem
    obtain ⟨x, hx⟩ := he.exists_value hi hop hargs
    have hlabel := he.ready.label_eq_ok.2 ⟨he.consistent.pred_lt hp, rfl⟩
    rw [incomingNodes, Conversion.proceeds_bind]
    refine (proceeds_valueNode hs he hsplit hop ?_ hargs (hin inc hinc) rfl hx).imp
      fun _ _ => ⟨⟨_, hlabel⟩, fun _ => trivial⟩
    simp [Operation.opcode]
  simp only [convertPhi, ht, ne_eq, not_true_eq_false, if_false, Conversion.proceeds_bind,
    Conversion.proceeds_lift]
  exact ⟨incs, hincs, hnodes.imp fun _ _ _ => trivial⟩

theorem proceeds_convertStore {w addr : ValueId} (hop : src.func.opOf i = some (.store w addr))
    (hw : src.isWord w = true) (haddr : IsSlot src.func addr) (hfits : Fits src w) :
    (convertStore src c i w addr).Proceeds (Builder.supply Opcode src c b before)
      fun _ => True := by
  obtain ⟨t, ht, hint⟩ := requireInt32_of_isWord (i := i) hw
  have hargs : w ∈ (Operation.store w addr).args := List.mem_cons_self
  obtain ⟨x, hx⟩ := he.exists_value (mem_of_split hsplit) hop hargs
  simp only [convertStore, Conversion.proceeds_bind, Conversion.proceeds_lift, liftFault_eq_ok]
  refine ⟨t, ht, (), hint, (proceeds_slotNode he haddr).imp fun _ _ => ?_⟩
  refine (proceeds_valueNode hs he hsplit hop ?_ hargs hfits rfl hx).imp fun _ _ _ => trivial
  simp [Operation.opcode]

theorem proceeds_convertBinary {o : BinaryOp} {t : TypeId} {x y : ValueId} {ops : Opcode × Opcode}
    (hop : src.func.opOf i = some (.binary o t x y)) (hops : binaryOpcodes o = some ops)
    (ht : src.types.isInt t 32 = true) (hx : Fits src x) (hprod : Produced src.func x)
    (hy : Fits src y) :
    (convertBinary src c i o t x y).Proceeds (Builder.supply Opcode src c b before)
      fun _ => True := by
  rw [convertBinary, hops, Conversion.proceeds_bind, Conversion.proceeds_lift]
  refine ⟨(), requireInt32_of_isInt ht, ?_⟩
  exact proceeds_pair (m := fun isConst => if isConst then ops.2 else ops.1) hs he hsplit hop
    (by simp [Operation.opcode]) rfl (by simp [Operation.args]) (by simp [Operation.args]) hx hprod
    hy

theorem proceeds_convertIcmp {p : Predicate} {t : TypeId} {x y : ValueId} {cmp : Comparison}
    (hop : src.func.opOf i = some (.icmp p t x y)) (hcmp : Comparable src c i p x y cmp) :
    (convertIcmp src c i p x y).Proceeds (Builder.supply Opcode src c b before)
      fun _ => True := by
  obtain ⟨hx, hy⟩ := mem_of_comparison hcmp.form
  rw [convertIcmp, Conversion.proceeds_bind, Conversion.proceeds_lift]
  refine ⟨cmp, hcmp.form, ?_⟩
  exact proceeds_pair (m := fun isConst => if isConst then .cmpri32 else .cmprr32) hs he hsplit hop
    (by simp [Operation.opcode]) rfl hx hy hcmp.left hcmp.produced hcmp.right

theorem proceeds_convertRet {w : ValueId} (hop : src.func.opOf i = some (.ret (some w)))
    (hw : src.isWord w = true) (hfits : Fits src w) :
    (convertRet src c i (some w)).Proceeds (Builder.supply Opcode src c b before)
      fun _ => True := by
  obtain ⟨t, ht, hint⟩ := requireInt32_of_isWord (i := i) hw
  have hargs : w ∈ (Operation.ret (some w)).args := by simp [Operation.args]
  obtain ⟨x, hx⟩ := he.exists_value (mem_of_split hsplit) hop hargs
  simp only [convertRet, Conversion.proceeds_bind, Conversion.proceeds_lift, liftFault_eq_ok]
  refine ⟨t, ht, (), hint, ?_⟩
  refine (proceeds_valueNode hs he hsplit hop ?_ hargs hfits rfl hx).imp fun _ _ _ => trivial
  simp [Operation.opcode]

/-- A branch reads the flags of a comparison that stands before it. -/
theorem proceeds_convertCondBr {cond x y : ValueId} {l r : BlockId} {p : Predicate} {t : TypeId}
    (hop : src.func.opOf i = some (.condBr cond l r))
    (hcond : src.func.values[cond]? = some (.result j)) (hj : src.func.blockOf j = some b)
    (hjop : src.func.opOf j = some (.icmp p t x y)) :
    (convertCondBr src c i (some b) cond l r).Proceeds (Builder.supply Opcode src c b before)
      fun _ => True := by
  have hi := mem_of_split hsplit
  obtain ⟨jins, hjins, hjblock⟩ := Option.bind_eq_some_iff.1 hj
  have hblock {target : BlockId} (ht : target ∈ (Operation.condBr cond l r).successors) :
      (Builder.supply Opcode src c b before).block target :=
    ⟨_, he.ready.label_eq_ok.2 ⟨he.consistent.target_lt hi hop ht, rfl⟩⟩
  have hflags : (Builder.supply Opcode src c b before).operand cond :=
    operand_supplied he hsplit hop rfl (List.mem_singleton_self _)
      (slot?_eq_none he.ready hcond hjop) fun hne => absurd hj (hne j hcond)
  cases hs (he.consistent.mem_instrsOf.2 hj) hjop with
  | icmp hcmp =>
    simp only [convertCondBr, Conversion.proceeds_bind, Conversion.proceeds_lift, liftFault_eq_ok,
      icmp?_of_icmp he hcond hj hjop, Except.ok.injEq, exists_eq_left', Func.instr_eq_ok, hjins,
      Option.some.injEq, hjblock, ne_eq, not_true_eq_false, if_false, hcmp.form]
    exact ⟨hflags, fun _ => ⟨hblock (by simp [Operation.successors]), fun _ _ =>
      ⟨hblock (by simp [Operation.successors]), fun _ _ => trivial⟩⟩⟩

/-- The conversion of a supported instruction proceeds if the instructions before it can be
converted. -/
theorem Supports.proceeds :
    (converter src c i).Proceeds (Builder.supply Opcode src c b before) fun _ => True := by
  have hi := mem_of_split hsplit
  obtain ⟨op, hop⟩ := Option.isSome_iff_exists.1
    (he.consistent.isSome_opOf (he.consistent.mem_instrsOf.1 hi))
  obtain ⟨ins, hins, hinsop⟩ := Option.bind_eq_some_iff.1 hop
  have hb := he.block_eq hi hins
  simp only [converter, Conversion.proceeds_bind, Conversion.proceeds_lift, liftFault_eq_ok,
    Func.instr_eq_ok, hins, Option.some.injEq, exists_eq_left', hinsop, hb]
  cases hs hi hop with
  | alloca =>
    obtain ⟨sl, hsl⟩ := exists_slotFor he hi hins hop
    simp [hsl]
  | phi ht hincs hin =>
    exact Conversion.proceeds_bind.2 (proceeds_convertPhi hs he hsplit hop ht hincs hin)
  | load ht haddr => exact Conversion.proceeds_bind.2 (proceeds_convertLoad he ht haddr)
  | store hw haddr hfits =>
    exact Conversion.proceeds_bind.2 (proceeds_convertStore hs he hsplit hop hw haddr hfits)
  | binary hops ht hx hprod hy =>
    exact Conversion.proceeds_bind.2 (proceeds_convertBinary hs he hsplit hop hops ht hx hprod hy)
  | icmp hcmp => exact Conversion.proceeds_bind.2 (proceeds_convertIcmp hs he hsplit hop hcmp)
  | br =>
    have hlt := he.consistent.target_lt hi hop (List.mem_singleton_self _)
    exact ⟨⟨_, he.ready.label_eq_ok.2 ⟨hlt, rfl⟩⟩, fun _ _ => trivial⟩
  | condBr hcond hj hjop => exact proceeds_convertCondBr hs he hsplit hop hcond hj hjop
  | ret hw hfits => exact Conversion.proceeds_bind.2 (proceeds_convertRet hs he hsplit hop hw hfits)

end Proceeds

/-- A supported instruction is converted if no conversion of it or of one of the instructions before
it is in progress. -/
theorem Supports.exists_convert (hs : Supports src c) (he : Eligible src c) {fuel : Nat}
    {before after : List InstrId} (hsplit : src.func.instrsOf b = before ++ i :: after)
    (hfuel : before.length < fuel) (hp : Builder.Poised c b (before ++ [i]) s) :
    ∃ r s', Builder.convert converter src fuel i s = .ok r s' ∧ Builder.Steady s s' := by
  induction fuel generalizing i before after s with
  | zero => exact absurd hfuel (Nat.not_lt_zero _)
  | succ fuel ih =>
    refine Builder.exists_convert (hp.free i (by simp)) fun hm => ?_
    have hnot : i ∉ before := by
      have hnodup := he.consistent.nodup_instrsOf b
      rw [hsplit, List.nodup_append] at hnodup
      exact fun hmem => hnodup.2.2 i hmem i List.mem_cons_self rfl
    have hbegun : Builder.Poised c b before (s.remembered i .inProgress) := by
      refine ⟨hp.context, hp.current, hp.limit, fun j hj => ?_⟩
      have hij : i ≠ j := fun hij => hnot (hij ▸ hj)
      rw [Builder.Free, Builder.memo_remembered_of_ne hij]
      exact hp.free j (List.mem_append_left _ hj)
    rw [hp.context]
    refine Builder.exists_run (fun j hj t ht => ?_) (hs.proceeds he hsplit) hbegun
    -- An instruction before this one has fewer instructions before it.
    obtain ⟨first, last, rfl⟩ := List.append_of_mem hj
    have hfirst : src.func.instrsOf b = first ++ j :: (last ++ i :: after) := by simp [hsplit]
    refine ih hfirst ?_
      ⟨ht.context, ht.current, ht.limit, fun k hk => ht.free k ?_⟩
    · rw [List.length_append, List.length_cons] at hfuel
      omega
    · rw [List.append_cons]
      exact List.mem_append_left _ hk

end Codegen.X86
