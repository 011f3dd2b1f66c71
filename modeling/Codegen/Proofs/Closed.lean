import Codegen.Proofs.Layout

/-!
# What a lowered function promises to its readers

Whoever allocates registers for a lowered function looks at nothing but its instructions and its
tables. The instructions are as the table of operations demands, their registers, slots and labels
are found in the tables of the function, and the ranges of the blocks cover the instructions in
layout order. If the function was checked, every range ends with the jump or the return that leaves
the block, and no branch stands earlier than one place before it.

## Main definitions

* `X86.Lowered.slice`: the instructions of a range.
* `X86.Lowered.Knows`: the operands that the tables of a lowered function know.
* `X86.Lowered.Closed`: lowered functions that refer to nothing but their tables.
* `X86.Delimited`: instructions that end with a jump or a return and have branches only there.

## Main results

* `X86.compile_closed`: what is lowered is closed, and its ranges are delimited if the function was
  checked.
-/

namespace Codegen.X86

variable {src : Source} {c : Context} {code : Lowered} {b : BlockId} {v : ValueId}

/-! ### Closed functions -/

/-- The label that an operand is. -/
def Operand.label? : Operand → Option Label
  | .label l => some l
  | _ => none

/-- The labels among the operands of an instruction, in order. -/
def Instr.labels (ins : Instr) : List Label := ins.operands.filterMap (·.2.label?)

/-- The instructions of a range. -/
def Lowered.slice (code : Lowered) (range : BlockRange) : List Instr :=
  (code.instrs.toList.drop range.start).take (range.stop - range.start)

/-- Ranges that cover the positions from one to another: each starts where the one before it stops.
-/
def Covers : Nat → List BlockRange → Nat → Prop
  | start, [], stop => start = stop
  | start, range :: ranges, stop =>
    range.start = start ∧ range.start ≤ range.stop ∧ Covers range.stop ranges stop

/-- The operands that the tables of a lowered function know. A register is the one of results, or it
is in the table with the type of the only value that has got it; a slot is in the table; a label is
that of exactly one block. -/
def Lowered.Knows (code : Lowered) (f : Func) (c : Context) : Operand → Prop
  | .empty => False
  | .reg r => r = eax ∨ code.regs.has r = true ∧
    ∃ v, c.Gives f v r ∧ f.valueType v = .ok (code.regs.type r) ∧ ∀ w, c.Gives f w r → w = v
  | .imm32 _ => True
  | .slot s => code.slots.has s = true
  | .label l => ∃! b, b < f.blocks.size ∧ code.labels[b]? = some l

/-- A lowered function, lowered from `f` in context `c`, that refers to nothing but its tables and
whose ranges are those of the blocks. -/
structure Lowered.Closed (code : Lowered) (f : Func) (c : Context) : Prop where
  /-- The operands have the number, the kinds and the roles that the table of operations says. -/
  conforms : ∀ ins ∈ code.instrs, ins.Conforms
  /-- The operands are in the tables of the function. -/
  knows : ∀ ins ∈ code.instrs, ∀ operand ∈ ins.operands, code.Knows f c operand.2
  /-- The blocks are listed in layout order. -/
  labels : code.blocks.map (·.label) = code.labels.toList
  names : code.blocks.map (·.name) = f.layout.map fun blk => blk.2.label blk.1
  /-- The ranges cover all instructions. -/
  covers : Covers 0 code.blocks code.instrs.size
  /-- A phi has two operands for each recorded predecessor of its block, in the recorded order. -/
  phis : ∀ b range, code.blocks[b]? = some range → ∀ ins ∈ code.slice range, ins.op = .phi →
    ins.operands.length = 1 + 2 * (f.predsOf b).length ∧
    ins.labels.map some = (f.predsOf b).map (code.labels[·]?)

/-- Instructions of which the last one is a jump or a return, with branches in the last two places
only. -/
structure Delimited (is : List Instr) : Prop where
  last : ∃ ins, is.getLast? = some ins ∧ (ins.op = .jmp ∨ ins.op = .ret)
  branches : ∀ k ins, is[k]? = some ins → ins.isBranch = true → is.length ≤ k + 2

/-! ### Operands -/

theorem Instr.Is.forall_operands {ins : Instr} {op : Opcode} {os : List Operand} (h : ins.Is op os)
    {P : Operand → Prop} (hos : ∀ o ∈ os, P o) : ∀ operand ∈ ins.operands, P operand.2 :=
  fun _ hmem => hos _ (h.operands_eq ▸ List.mem_map_of_mem hmem)

theorem Instr.Is.labels_eq {ins : Instr} {op : Opcode} {os : List Operand} (h : ins.Is op os) :
    ins.labels = os.filterMap Operand.label? := by
  rw [Instr.labels, ← Function.comp_def Operand.label? Prod.snd, ← List.filterMap_map,
    h.operands_eq]

section Operands

variable (h : Emitted src c code)

include h

theorem Emitted.knows_reg (hn : src.func.Naming) (hv : src.func.InRegister v) :
    code.Knows src.func c (.reg (src.func.regOf v)) := by
  refine .inr ⟨?_, v, (h.ready.gives_regOf_iff hv).2 ⟨?_, rfl⟩, ?_, fun w hw => ?_⟩
  · have hlt := List.idxOf_lt_length_of_mem hv
    simp [RegTable.has, h.regs, h.ready.isReal_regOf hv, h.ready.id_regOf hv, h.ready.size_regs,
      hlt]
  · rcases hv.cases hn with ⟨n, t, hx⟩ | ⟨i, ins, -, hins, -, rfl⟩
    · exact (Array.getElem?_eq_some_iff.1 hx).1
    · exact (Array.getElem?_eq_some_iff.1 (hn.result_value hins)).1
  · rw [h.regs]
    exact h.ready.type_regOf hv
  · exact ((h.ready.gives_regOf_iff hv).1 hw).2

theorem Emitted.knows_stands (hn : src.func.Naming) {o : Operand} (ho : Stands src v o) :
    code.Knows src.func c o := by
  cases ho with
  | reg hv _ => exact h.knows_reg hn hv
  | imm => trivial

theorem Emitted.knows_slot {j : InstrId} (hj : j ∈ src.func.inserted)
    (ha : src.func.isAlloca j = true) : code.Knows src.func c (.slot (src.func.slotOf j)) := by
  have hlt : src.func.slotOf j < (src.func.inserted.filter src.func.isAlloca).length :=
    List.idxOf_lt_length_of_mem (List.mem_filter.2 ⟨hj, ha⟩)
  simpa [Lowered.Knows, SlotTable.has, h.slots, h.ready.slots] using hlt

theorem Emitted.getElem?_labels {l : Label} :
    code.labels[b]? = some l ↔ b < src.func.blocks.size ∧ l = b + 1 := by
  rw [h.labels, ← h.ready.label_eq_ok, Context.label]
  cases c.labels[b]? <;> simp

theorem Emitted.knows_label (hb : b < src.func.blocks.size) :
    code.Knows src.func c (.label (b + 1)) := by
  refine ⟨b, ⟨hb, h.getElem?_labels.2 ⟨hb, rfl⟩⟩, ?_⟩
  rintro b' ⟨-, hb'⟩
  exact (Nat.succ.inj (h.getElem?_labels.1 hb').2).symm

/-! ### Selected instructions -/

variable {op : Operation} {is : List Instr}

/-- Whatever is selected has operands that the tables know. -/
theorem Emitted.knows_selected (hn : src.func.Naming) (hsel : Selected src b v op is) :
    ∀ ins ∈ is, ∀ operand ∈ ins.operands, code.Knows src.func c operand.2 := by
  have hlabel {l : BlockId} (hl : l < src.func.blocks.size) {ins : Instr} {jump : Opcode}
      (hins : ins.Is jump [.label (l + 1)]) :
      ∀ operand ∈ ins.operands, code.Knows src.func c operand.2 :=
    hins.forall_operands (by simpa using h.knows_label hl)
  cases hsel with
  | alloca | icmp => simp
  | @phi t incoming ins operands hins hv hin =>
    refine List.forall_mem_singleton.2 (hins.forall_operands ?_)
    refine List.forall_mem_cons.2 ⟨h.knows_reg hn hv, fun o ho => ?_⟩
    obtain ⟨os, hos, hmem⟩ := List.mem_flatten.1 ho
    obtain ⟨p, -, hp, w, o', -, hstands, rfl⟩ := exists_mem_of_forall₂ hin.flip hos
    rcases List.mem_pair.1 hmem with rfl | rfl
    · exact h.knows_stands hn hstands
    · exact h.knows_label hp
  | load _ _ ha hins hv hj =>
    refine List.forall_mem_singleton.2 (hins.forall_operands ?_)
    simpa using ⟨h.knows_reg hn hv, h.knows_slot hj ha⟩
  | store _ _ ha ho hins hj =>
    refine List.forall_mem_singleton.2 (hins.forall_operands ?_)
    simpa using ⟨h.knows_slot hj ha, h.knows_stands hn ho⟩
  | binary _ _ hx ho hcopy hins hv =>
    have hout := h.knows_reg hn hv
    refine List.forall_mem_cons.2 ⟨hcopy.forall_operands ?_, List.forall_mem_singleton.2
      (hins.forall_operands ?_)⟩
    · simpa using ⟨hout, h.knows_stands hn hx⟩
    · simpa using ⟨hout, h.knows_stands hn ho⟩
  | br hins hb => exact List.forall_mem_singleton.2 (hlabel hb hins)
  | condBr _ _ _ _ hx ho hcompare htaken hother hl hr =>
    refine List.forall_mem_cons.2 ⟨hcompare.forall_operands ?_, List.forall_mem_cons.2
      ⟨hlabel hl htaken, List.forall_mem_singleton.2 (hlabel hr hother)⟩⟩
    simpa using ⟨h.knows_stands hn hx, h.knows_stands hn ho⟩
  | ret _ ho hmove hins =>
    refine List.forall_mem_cons.2 ⟨hmove.forall_operands ?_, List.forall_mem_singleton.2
      (hins.forall_operands (by simp))⟩
    simpa using ⟨(.inl rfl : code.Knows src.func c (.reg eax)), h.knows_stands hn ho⟩

end Operands

section Selected

variable {op : Operation} {is : List Instr}

theorem Selected.conforms (h : Selected src b v op is) : ∀ ins ∈ is, ins.Conforms := by
  cases h with
  | alloca | icmp => simp
  | phi hins | load _ _ _ hins | store _ _ _ _ hins | br hins => simpa using hins.conforms
  | binary _ _ _ _ hcopy hins | ret _ _ hcopy hins => simpa using ⟨hcopy.conforms, hins.conforms⟩
  | condBr _ _ _ _ _ _ hcompare htaken hother =>
    simpa using ⟨hcompare.conforms, htaken.conforms, hother.conforms⟩

/-- What comes in from the predecessors is one operand and one label for each. -/
theorem labels_comesIn {incoming : List (ValueId × BlockId)} {preds : List BlockId}
    {operands : List (List Operand)} (h : List.Forall₂ (ComesIn src incoming) preds operands) :
    operands.flatten.length = 2 * preds.length ∧
      operands.flatten.filterMap Operand.label? = preds.map (· + 1) ∧
      ∀ p ∈ preds, p < src.func.blocks.size := by
  induction h with
  | nil => exact ⟨rfl, rfl, by simp⟩
  | @cons p os preds operands hp _ ih =>
    obtain ⟨hlen, hlabels, hlt⟩ := ih
    obtain ⟨hp, w, o, -, hstands, rfl⟩ := hp
    have hnone : o.label? = none := by cases hstands <;> rfl
    refine ⟨by simp [hlen]; omega, ?_, List.forall_mem_cons.2 ⟨hp, hlt⟩⟩
    rw [List.flatten_cons, List.filterMap_append, hlabels, List.filterMap_cons_none hnone]
    rfl

/-- Phis are selected for phis only. -/
theorem Selected.phi_operands (h : Selected src b v op is) {ins : Instr} (hmem : ins ∈ is)
    (hphi : ins.op = .phi) :
    ins.operands.length = 1 + 2 * (src.func.predsOf b).length ∧
      ins.labels = (src.func.predsOf b).map (· + 1) ∧
      ∀ p ∈ src.func.predsOf b, p < src.func.blocks.size := by
  have hop : op.isPhi = true := by
    by_contra hop
    have hnot := h.isPhi_eq_false (by simpa using hop) ins hmem
    simp [Instr.isPhi, hphi] at hnot
  cases h with
  | @phi t incoming m operands hins _ hin =>
    obtain rfl := List.mem_singleton.1 hmem
    obtain ⟨hlen, hlabels, hlt⟩ := labels_comesIn hin
    refine ⟨?_, ?_, hlt⟩
    · rw [← List.length_map (f := Prod.snd), hins.operands_eq, List.length_cons, hlen]
      omega
    · rw [hins.labels_eq, List.filterMap_cons, hlabels]
      rfl
  | _ => cases hop

theorem Selected.isBranch_eq_false (h : Selected src b v op is) (hop : op.isTerminator = false) :
    ∀ ins ∈ is, ins.isBranch = false := by
  cases h with
  | alloca | icmp => simp
  | phi hins | load _ _ _ hins => simp [Instr.isBranch, hins.op_eq, Opcode.isBranch]
  | @store _ _ _ o _ _ _ _ _ hins =>
    cases o <;> simp [Instr.isBranch, hins.op_eq, Operand.form, Opcode.isBranch]
  | @binary op _ _ _ _ _ o _ _ hrr _ _ _ hcopy hins =>
    cases op <;> cases hrr <;> cases o <;>
      simp [Instr.isBranch, hcopy.op_eq, hins.op_eq, Operand.form, Opcode.isBranch]
  | br | condBr | ret => cases hop

/-- What is selected for a terminator leaves the block at its end. -/
theorem Selected.delimited (h : Selected src b v op is) (hop : op.isTerminator = true) :
    Delimited is := by
  cases h with
  | br hins =>
    refine ⟨⟨_, rfl, .inl hins.op_eq⟩, fun k ins hk _ => ?_⟩
    exact Nat.le_trans (by simp) (Nat.le_add_left 2 k)
  | @condBr _ _ _ _ _ _ _ _ _ _ _ o compare _ _ _ _ _ _ _ _ hcompare _ hother =>
    refine ⟨⟨_, rfl, .inl hother.op_eq⟩, fun k ins hk hbranch => ?_⟩
    cases k with
    | zero =>
      obtain rfl : compare = ins := by simpa using hk
      cases o <;> simp [Instr.isBranch, hcompare.op_eq, Operand.form, Opcode.isBranch] at hbranch
    | succ k => simp
  | ret _ _ _ hins =>
    refine ⟨⟨_, rfl, .inr hins.op_eq⟩, fun k ins hk _ => ?_⟩
    exact Nat.le_add_left 2 k
  | _ => cases hop

/-- Instructions that are no branches may stand before. -/
theorem Delimited.append {before : List Instr} (h : Delimited is)
    (hbefore : ∀ ins ∈ before, ins.isBranch = false) : Delimited (before ++ is) := by
  obtain ⟨⟨ins, hlast, hop⟩, hbranches⟩ := h
  refine ⟨⟨ins, by simp [List.getLast?_append, hlast], hop⟩, fun k ins hk hbranch => ?_⟩
  rw [List.getElem?_append] at hk
  split at hk
  · have := hbefore ins (List.mem_of_getElem? hk)
    simp [hbranch] at this
  · have := hbranches _ ins hk hbranch
    rw [List.length_append]
    omega

end Selected

/-! ### Blocks -/

/-- The code of a block of the right shape is delimited. -/
theorem delimited_flatten (hs : src.func.Shaped b) {codes : List (List Instr)}
    (h : List.Forall₂ (SelectedFor src b) (src.func.instrsOf b) codes) :
    Delimited codes.flatten := by
  obtain ⟨before, last, hsplit⟩ : ∃ before last, src.func.instrsOf b = before ++ [last] :=
    ⟨_, _, (List.dropLast_append_getLast hs.ne_nil).symm⟩
  rw [hsplit] at h
  obtain ⟨codes, rest, rfl, hcodes, hrest⟩ := exists_append_of_forall₂ h
  obtain ⟨is, _, ⟨ins, op, hins, hop, hsel⟩, hnil, rfl⟩ := List.forall₂_cons_left_iff.1 hrest
  cases hnil
  have hopOf {i : InstrId} {ins : Codegen.Instr} {op : Operation}
      (hins : src.func.instrs[i]? = some ins) (hop : ins.op = some op) :
      src.func.Terminates i ↔ op.isTerminator = true := by
    simp [Func.Terminates, Func.opOf, hins, hop]
  rw [List.flatten_append, List.flatten_singleton]
  refine (hsel.delimited ((hopOf hins hop).1 ((hs.terminates_iff hsplit).2 rfl))).append ?_
  intro m hm
  obtain ⟨i, hi, is', hmem, ins', op', hins', hop', hsel'⟩ :=
    exists_selected_of_mem_flatten hcodes hm
  obtain ⟨l₁, l₂, rfl⟩ := List.append_of_mem hi
  refine hsel'.isBranch_eq_false ?_ m hmem
  have hnot : ¬src.func.Terminates i := by
    rw [hs.terminates_iff (show _ = l₁ ++ i :: (l₂ ++ [last]) by simpa using hsplit)]
    simp
  simpa [hopOf hins' hop'] using hnot

section Tiled

variable {n : Nat} {blks : List (BlockId × Block)} {ranges : List BlockRange} {more : List Instr}

theorem Tiled.covers (h : Tiled src n blks ranges more) : Covers n ranges (n + more.length) := by
  induction h with
  | nil => rfl
  | cons _ _ ih => exact ⟨rfl, Nat.le_add_right _ _, by simpa [Nat.add_assoc] using ih⟩

theorem Tiled.map_name (h : Tiled src n blks ranges more) :
    ranges.map (·.name) = blks.map fun blk => blk.2.label blk.1 := by
  induction h with
  | nil => rfl
  | cons _ _ ih => rw [List.map_cons, List.map_cons, ih]

/-- Every instruction was selected for one of some block. -/
theorem Tiled.exists_selected (h : Tiled src n blks ranges more) {ins : Instr} (hm : ins ∈ more) :
    ∃ b i is, ins ∈ is ∧ SelectedFor src b i is := by
  induction h with
  | nil => cases hm
  | cons hcodes _ ih =>
    rcases List.mem_append.1 hm with hm | hm
    · obtain ⟨i, -, is, hmem, hsel⟩ := exists_selected_of_mem_flatten hcodes hm
      exact ⟨_, i, is, hmem, hsel⟩
    · exact ih hm

/-- A range holds what was selected for the instructions of its block, whatever stands before. -/
theorem Tiled.take_drop (h : Tiled src n blks ranges more) {k : Nat} {range : BlockRange}
    (hk : ranges[k]? = some range) {pre : List Instr} (hpre : pre.length = n) :
    ∃ b blk codes, blks[k]? = some (b, blk) ∧
      List.Forall₂ (SelectedFor src b) (src.func.instrsOf b) codes ∧
      ((pre ++ more).drop range.start).take (range.stop - range.start) = codes.flatten := by
  induction h generalizing k pre with
  | nil => cases hk
  | @cons n b blk codes blks ranges rest hcodes _ ih =>
    cases k with
    | zero =>
      cases hk
      exact ⟨b, blk, codes, rfl, hcodes, by simp [← hpre]⟩
    | succ k =>
      rw [← List.append_assoc]
      exact ih hk (by rw [List.length_append, hpre])

end Tiled

theorem Emitted.label_eq (h : Emitted src c code) {range : BlockRange}
    (hb : code.blocks[b]? = some range) : range.label = b + 1 := by
  have hget : (code.blocks.map (·.label))[b]? = some range.label := by
    rw [List.getElem?_map, hb]
    rfl
  rw [h.tiled.map_label, List.getElem?_map] at hget
  obtain ⟨⟨b', blk⟩, hblk, he⟩ := Option.map_eq_some_iff.1 hget
  obtain rfl := Func.getElem?_layout hblk
  exact he.symm

/-- The range at a position is that of the block with this number. -/
theorem Emitted.slice_eq (h : Emitted src c code) {range : BlockRange}
    (hb : code.blocks[b]? = some range) :
    b < src.func.blocks.size ∧ ∃ codes,
      List.Forall₂ (SelectedFor src b) (src.func.instrsOf b) codes ∧
      code.slice range = codes.flatten := by
  obtain ⟨b', blk, codes, hblk, hcodes, hslice⟩ := h.tiled.take_drop hb List.length_nil
  obtain rfl := Func.getElem?_layout hblk
  have hlt := (Array.getElem?_eq_some_iff.1 (Func.mem_layout.1 (List.mem_of_getElem? hblk))).1
  exact ⟨hlt, codes, hcodes, hslice⟩

/-! ### Functions -/

theorem Emitted.closed (h : Emitted src c code) (hn : src.func.Naming) :
    code.Closed src.func c where
  conforms ins hins := by
    obtain ⟨b, i, is, hmem, _, _, -, -, hsel⟩ :=
      h.tiled.exists_selected (Array.mem_toList_iff.2 hins)
    exact hsel.conforms ins hmem
  knows ins hins := by
    obtain ⟨b, i, is, hmem, _, _, -, -, hsel⟩ :=
      h.tiled.exists_selected (Array.mem_toList_iff.2 hins)
    exact h.knows_selected hn hsel ins hmem
  labels := by
    rw [h.tiled.map_label, h.labels, h.ready.labels, ← Func.map_fst_layout, List.map_map]
    rfl
  names := h.tiled.map_name
  covers := by simpa using h.tiled.covers
  phis b range hb ins hmem hphi := by
    obtain ⟨-, codes, hcodes, hslice⟩ := h.slice_eq hb
    rw [hslice] at hmem
    obtain ⟨i, -, is, hmem, _, _, -, -, hsel⟩ := exists_selected_of_mem_flatten hcodes hmem
    obtain ⟨hlen, hlabels, hlt⟩ := hsel.phi_operands hmem hphi
    refine ⟨hlen, ?_⟩
    rw [hlabels, List.map_map]
    exact List.map_congr_left fun p hp => (h.getElem?_labels.2 ⟨hlt p hp, rfl⟩).symm

/-- Every function that lowering accepts becomes a closed one, in whatever order it was put together
and whether it was checked or not. If it was checked, each of its blocks ends with a jump or a
return, and branches stand in the last two places only. -/
theorem compile_closed {m m' : Compiler} (hf : src.func.Drafted)
    (hcompile : Compiler.compile src m = .ok code m') :
    code.Closed src.func m'.context ∧
      (src.func.check src.types = .ok () →
        ∀ range ∈ code.blocks, Delimited (code.slice range)) := by
  have hcon := hf.coherent
  have hemitted := emitted_of_compile hcon hcompile
  refine ⟨hemitted.closed hcon.toNaming, fun hcheck range hrange => ?_⟩
  obtain ⟨b, hb⟩ := List.getElem?_of_mem hrange
  obtain ⟨hlt, codes, hcodes, hslice⟩ := hemitted.slice_eq hb
  rw [hslice]
  refine delimited_flatten ?_ hcodes
  have hbody : src.func.isDeclaration = false := by
    simpa [Func.isDeclaration] using Nat.ne_of_gt (Nat.zero_lt_of_lt hlt)
  simp only [Func.check, hbody, Bool.false_eq_true, if_false, Except.bind_eq_ok,
    Func.checkBlocks_eq_ok hcon] at hcheck
  obtain ⟨_, hshape, -⟩ := hcheck
  exact hshape b hlt

/-- The sample function has a phi with three predecessors, a slot and a loop. -/
theorem compile_closed_sample :
    Source.sample.func.Drafted ∧ ∃ code m', Compiler.compile Source.sample {} = .ok code m' ∧
      code.Closed Source.sample.func m'.context ∧
      ∀ range ∈ code.blocks, Delimited (code.slice range) := by
  have hlowers : EStateM.isOk (Compiler.compile Source.sample {}) = true := by decide +kernel
  obtain ⟨code, m', hcompile⟩ := EStateM.eq_ok_of_isOk hlowers
  obtain ⟨hclosed, hdelimited⟩ := compile_closed Source.built_sample.drafted hcompile
  exact ⟨Source.built_sample.drafted, code, m', hcompile, hclosed,
    hdelimited Source.check_sample⟩

end Codegen.X86
