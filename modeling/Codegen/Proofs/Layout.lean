import Codegen.Proofs.Availability
import Codegen.Proofs.Selection

/-!
# The layout of a lowered function

A function is lowered instruction by instruction into one buffer. What was selected for the
instructions of a block stands there in their order, from the recorded start of the block to its
stop, where the next block starts, and a label leads to the block with the number below it. The
context stays as it was set up.

## Main definitions

* `X86.SelectedFor`: the instructions that are selected for an instruction of a block.
* `X86.Tiled`: the ranges of some blocks that stand one behind the other.
* `X86.Emitted`: a lowered function with the context that it was lowered in.
* `X86.Laid`: a lowered function whose blocks are found by their labels.

## Main results

* `X86.emitted_of_compile`: compiling gives the ranges of all blocks, one behind the other.
* `X86.laid_of_compile`: compiling lays a function out.
-/

namespace Codegen

/-- Whether the result of an operation is carried in a register. -/
def Operation.isCarried : Operation → Bool
  | .phi _ _ | .load _ _ | .binary _ _ _ _ => true
  | _ => false

namespace X86

variable {src : Source} {s s' : Compiler} {i : InstrId} {b : BlockId}

/-- The instructions that are selected for an instruction of a block. -/
def SelectedFor (src : Source) (b : BlockId) (i : InstrId) (code : List Instr) : Prop :=
  ∃ ins op, src.func.instrs[i]? = some ins ∧ ins.op = some op ∧ Selected src b ins.result op code

/-- From a position in a buffer on stands what was selected for some instructions of a block. -/
def Starts (src : Source) (buffer : List Instr) (b : BlockId) (is : List InstrId) (start : Nat) :
    Prop :=
  ∃ codes rest, List.Forall₂ (SelectedFor src b) is codes ∧
    buffer.drop start = codes.flatten ++ rest

/-- What was lowered from some blocks, from a position on: each range holds what was selected for
the instructions of its block, and the next range starts where it stops. -/
inductive Tiled (src : Source) :
    Nat → List (BlockId × Block) → List BlockRange → List Instr → Prop
  | nil {n : Nat} : Tiled src n [] [] []
  | cons {n : Nat} {b : BlockId} {blk : Block} {codes : List (List Instr)}
      {blks : List (BlockId × Block)} {ranges : List BlockRange} {rest : List Instr}
      (hcodes : List.Forall₂ (SelectedFor src b) (src.func.instrsOf b) codes)
      (hrest : Tiled src (n + codes.flatten.length) blks ranges rest) :
      Tiled src n ((b, blk) :: blks)
        (⟨b + 1, blk.label b, n, n + codes.flatten.length⟩ :: ranges) (codes.flatten ++ rest)

/-- A lowered function with the context that it was lowered in. -/
structure Emitted (src : Source) (c : Context) (code : Lowered) : Prop where
  ready : Context.Ready src.func c
  regs : code.regs = c.regs
  slots : code.slots = c.slots
  labels : code.labels = c.labels
  tiled : Tiled src 0 src.func.layout code.blocks code.instrs.toList

/-- A lowered function in which every block is found by its label and starts with what was selected
for its instructions. The first block of the function comes first. -/
structure Laid (src : Source) (code : Lowered) : Prop where
  context : ∃ c, Context.Ready src.func c ∧ code.regs = c.regs
  block : ∀ b < src.func.blocks.size, ∃ range, code.blocks.find? (·.label == b + 1) = some range ∧
    Starts src code.instrs.toList b (src.func.instrsOf b) range.start
  first : code.blocks.head?.map (·.label) = src.func.blockIds.head?.map (· + 1)

/-! ### Instructions -/

/-- Lowering an instruction appends what is selected for it. -/
theorem lowerInstr_eq_ok (hcon : src.func.Coherent) (h : Context.Ready src.func s.context)
    (hi : i ∈ src.func.instrsOf b) (hl : Compiler.lowerInstr src i s = .ok () s') :
    s'.context = s.context ∧ ∃ code, SelectedFor src b i code ∧
      s'.emitted.toList = s.emitted.toList ++ code := by
  unfold Compiler.lowerInstr at hl
  split at hl
  · next code c hsel =>
    cases hl
    have hins := Array.getElem?_eq_getElem (Func.lt_instrs_of_mem hcon hi)
    obtain ⟨rfl, op, hop, hcode⟩ := select_eq_ok hcon h hi hins hsel
    exact ⟨rfl, code, ⟨_, op, hins, hop, hcode⟩, by simp⟩
  · cases hl

theorem checkLimit_eq_ok (h : Compiler.checkLimit s = .ok () s') : s' = s := by
  simp only [Compiler.checkLimit, EStateM.bind_eq_ok, EStateM.get_eq_ok] at h
  obtain ⟨_, _, ⟨rfl, rfl⟩, h⟩ := h
  split at h
  · exact absurd h EStateM.throw_ne_ok
  · exact (EStateM.pure_eq_ok.1 h).2.symm

theorem lowerInstrs_eq_ok (hcon : src.func.Coherent) {is : List InstrId}
    (h : Context.Ready src.func s.context) (his : ∀ i ∈ is, i ∈ src.func.instrsOf b)
    (hl : Compiler.lowerInstrs src is s = .ok () s') :
    s'.context = s.context ∧ ∃ codes, List.Forall₂ (SelectedFor src b) is codes ∧
      s'.emitted.toList = s.emitted.toList ++ codes.flatten := by
  induction is generalizing s with
  | nil =>
    obtain ⟨-, rfl⟩ := EStateM.pure_eq_ok.1 hl
    exact ⟨rfl, [], .nil, by simp⟩
  | cons i is ih =>
    obtain ⟨hi, his⟩ := List.forall_mem_cons.1 his
    simp only [Compiler.lowerInstrs, EStateM.bind_eq_ok] at hl
    obtain ⟨_, s₁, hl₁, _, s₂, hl₂, hl⟩ := hl
    obtain ⟨hc₁, code, hcode, hemit₁⟩ := lowerInstr_eq_ok hcon h hi hl₁
    obtain rfl := checkLimit_eq_ok hl₂
    obtain ⟨hc, codes, hcodes, hemit⟩ := ih (hc₁ ▸ h) his hl
    refine ⟨hc.trans hc₁, code :: codes, .cons hcode hcodes, ?_⟩
    rw [hemit, hemit₁, List.append_assoc, List.flatten_cons]

/-! ### Blocks -/

theorem size_of_toList_eq_append {α : Type} {old new : Array α} {more : List α}
    (h : new.toList = old.toList ++ more) : new.size = old.size + more.length := by
  rw [← Array.length_toList, h, List.length_append, Array.length_toList]

/-- Lowering a block appends what is selected for its instructions, and the range says where. -/
theorem lowerBlock_eq_ok (hcon : src.func.Coherent) {blk : Block}
    (h : Context.Ready src.func s.context) (hb : src.func.blocks[b]? = some blk)
    {range : BlockRange} (hl : Compiler.lowerBlock src (b, blk) s = .ok range s') :
    s'.context = s.context ∧ ∃ codes,
      List.Forall₂ (SelectedFor src b) (src.func.instrsOf b) codes ∧
      s'.emitted.toList = s.emitted.toList ++ codes.flatten ∧
      range = ⟨b + 1, blk.label b, s.emitted.size, s.emitted.size + codes.flatten.length⟩ := by
  simp only [Compiler.lowerBlock, EStateM.bind_eq_ok, EStateM.get_eq_ok, atPlace_eq_ok,
    liftFaultStop_eq_ok, EStateM.pure_eq_ok] at hl
  obtain ⟨_, _, ⟨rfl, rfl⟩, _, s₁, hl, _, _, ⟨rfl, rfl⟩, l, _, ⟨hlabel, rfl⟩, rfl, rfl⟩ := hl
  rw [Func.instrs_eq_instrsOf hb]
  obtain ⟨hc, codes, hcodes, hemit⟩ := lowerInstrs_eq_ok (b := b) hcon h
    (fun i hi => Func.instrs_eq_instrsOf hb ▸ hi) hl
  obtain ⟨-, rfl⟩ := h.label_eq_ok.1 (hc ▸ hlabel)
  exact ⟨hc, codes, hcodes, hemit, by rw [size_of_toList_eq_append hemit]⟩

/-- Lowering blocks one after the other puts their ranges one behind the other. -/
theorem lowerBlocks_eq_ok (hcon : src.func.Coherent) {blks : List (BlockId × Block)}
    (h : Context.Ready src.func s.context)
    (hblks : ∀ b blk, (b, blk) ∈ blks → src.func.blocks[b]? = some blk) {ranges : List BlockRange}
    (hl : blks.mapM (Compiler.lowerBlock src) s = .ok ranges s') :
    s'.context = s.context ∧ ∃ more, s'.emitted.toList = s.emitted.toList ++ more ∧
      Tiled src s.emitted.size blks ranges more := by
  induction blks generalizing s ranges with
  | nil =>
    obtain ⟨rfl, rfl⟩ := EStateM.pure_eq_ok.1 hl
    exact ⟨rfl, [], by simp, .nil⟩
  | cons blk blks ih =>
    obtain ⟨b, blk⟩ := blk
    simp only [List.mapM_cons, EStateM.bind_eq_ok, EStateM.pure_eq_ok] at hl
    obtain ⟨range, s₁, hl₁, ranges, s₂, hl₂, rfl, rfl⟩ := hl
    obtain ⟨hc₁, codes, hcodes, hemit₁, rfl⟩ :=
      lowerBlock_eq_ok hcon h (hblks b blk List.mem_cons_self) hl₁
    obtain ⟨hc, more, hemit, hrest⟩ := ih (hc₁ ▸ h)
      (fun b blk hmem => hblks b blk (List.mem_cons_of_mem _ hmem)) hl₂
    rw [size_of_toList_eq_append hemit₁] at hrest
    refine ⟨hc.trans hc₁, codes.flatten ++ more, ?_, .cons hcodes hrest⟩
    rw [hemit, hemit₁, List.append_assoc]

/-- The range of a block starts where its code does, whatever stands before. -/
theorem Tiled.starts {n : Nat} {blks : List (BlockId × Block)} {ranges : List BlockRange}
    {more : List Instr} (h : Tiled src n blks ranges more) {pre : List Instr}
    (hpre : pre.length = n) :
    List.Forall₂ (fun blk range => range.label = blk.1 + 1 ∧
      Starts src (pre ++ more) blk.1 (src.func.instrsOf blk.1) range.start) blks ranges := by
  induction h generalizing pre with
  | nil => exact .nil
  | @cons n b blk codes blks ranges rest hcodes _ ih =>
    refine .cons ⟨rfl, codes, rest, hcodes, by rw [← hpre, List.drop_left]⟩ ?_
    rw [← List.append_assoc]
    exact ih (by rw [List.length_append, hpre])

/-! ### The code of one block -/

theorem exists_selected_of_mem_flatten {l : List InstrId} {codes : List (List Instr)}
    (h : List.Forall₂ (SelectedFor src b) l codes) {m : Instr} (hm : m ∈ codes.flatten) :
    ∃ i ∈ l, ∃ is, m ∈ is ∧ SelectedFor src b i is := by
  obtain ⟨is, his, hmem⟩ := List.mem_flatten.1 hm
  obtain ⟨i, hi, hsel⟩ := exists_mem_of_forall₂ h.flip his
  exact ⟨i, hi, is, hmem, hsel⟩

/-- The code of a terminator is not empty. -/
theorem flatten_ne_nil (hs : src.func.Shaped b) {before l : List InstrId}
    (hb : src.func.instrsOf b = before ++ l) (hne : l ≠ []) {codes : List (List Instr)}
    (h : List.Forall₂ (SelectedFor src b) l codes) : codes.flatten ≠ [] := by
  obtain ⟨l', last, rfl⟩ : ∃ l' last, l = l' ++ [last] :=
    ⟨_, _, (List.dropLast_append_getLast hne).symm⟩
  obtain ⟨op, hop, hterm⟩ := (hs.terminates_iff (hb.trans (List.append_assoc ..).symm)).2 rfl
  obtain ⟨is, his, ins, op', hins, hop', hsel⟩ := exists_mem_of_forall₂ h (List.mem_concat_self)
  obtain rfl : op' = op := by simpa [Func.opOf, hins, hop'] using hop
  intro hnil
  exact hsel.ne_nil hterm (List.flatten_eq_nil_iff.1 hnil is his)

/-! ### Functions -/

theorem start_eq_ok (hcon : src.func.Coherent) (h : Compiler.start src s = .ok () s') :
    Context.Ready src.func s'.context ∧ s'.emitted = #[] := by
  unfold Compiler.start at h
  split at h
  · next c hinit =>
    cases h
    exact ⟨Context.ready_of_init hcon hinit, rfl⟩
  · cases h

theorem Tiled.map_label {n : Nat} {blks : List (BlockId × Block)} {ranges : List BlockRange}
    {more : List Instr} (h : Tiled src n blks ranges more) :
    ranges.map (·.label) = blks.map (·.1 + 1) := by
  induction h with
  | nil => rfl
  | cons _ _ ih => rw [List.map_cons, List.map_cons, ih]

/-- A label is found at the range of the block that has it. -/
theorem find?_label {R : BlockId → BlockRange → Prop} {blks : List (BlockId × Block)}
    {ranges : List BlockRange} {blk : Block}
    (h : List.Forall₂ (fun blk range => range.label = blk.1 + 1 ∧ R blk.1 range) blks ranges)
    (hb : (b, blk) ∈ blks) : ∃ range, ranges.find? (·.label == b + 1) = some range ∧ R b range := by
  induction h with
  | nil => cases hb
  | @cons blk' range blks ranges hrange _ ih =>
    by_cases hlabel : blk'.1 = b
    · subst hlabel
      exact ⟨range, by simp [hrange.1], hrange.2⟩
    · have hne : blk' ≠ (b, blk) := fun he => hlabel (by rw [he])
      obtain ⟨range', hfind, hR⟩ := ih ((List.mem_cons.1 hb).resolve_left (Ne.symm hne))
      exact ⟨range', by simpa [hrange.1, hlabel] using hfind, hR⟩

/-- Compiling means setting the compiler up and lowering all blocks. -/
theorem compile_eq_ok {code : Lowered} :
    Compiler.compile src s = .ok code s' ↔ ∃ s₁ ranges t, Compiler.start src s = .ok () s₁ ∧
      src.func.layout.mapM (Compiler.lowerBlock src) s₁ = .ok ranges t ∧
      ⟨src.func.name, t.emitted, ranges, t.context.regs, t.context.slots, t.context.labels⟩ = code ∧
      t.reset = s' := by
  constructor
  · intro h
    unfold Compiler.compile at h
    split at h
    · next code' t hl =>
      cases h
      simp only [Compiler.lowerFunc, EStateM.run, EStateM.bind_eq_ok, EStateM.get_eq_ok,
        EStateM.pure_eq_ok] at hl
      obtain ⟨_, s₁, hstart, ranges, _, hl, _, _, ⟨rfl, rfl⟩, rfl, rfl⟩ := hl
      exact ⟨s₁, ranges, _, hstart, hl, rfl, rfl⟩
    · cases h
  · rintro ⟨s₁, ranges, t, hstart, hl, rfl, rfl⟩
    have hlower : (Compiler.lowerFunc src).run s = .ok ⟨src.func.name, t.emitted, ranges,
        t.context.regs, t.context.slots, t.context.labels⟩ t := by
      simp only [Compiler.lowerFunc, EStateM.run, EStateM.bind_eq_ok, EStateM.get_eq_ok,
        EStateM.pure_eq_ok]
      exact ⟨(), s₁, hstart, ranges, t, hl, t, t, ⟨rfl, rfl⟩, rfl, rfl⟩
    rw [Compiler.compile, hlower]

/-- Compiling gives the ranges of all blocks, one behind the other, and the tables of the context.
-/
theorem emitted_of_compile (hcon : src.func.Coherent) {code : Lowered}
    (h : Compiler.compile src s = .ok code s') : Emitted src s'.context code := by
  obtain ⟨s₁, ranges, t, hstart, hl, rfl, rfl⟩ := compile_eq_ok.1 h
  obtain ⟨hready, hempty⟩ := start_eq_ok hcon hstart
  obtain ⟨hc, more, hemit, htiled⟩ :=
    lowerBlocks_eq_ok hcon hready (fun _ _ => Func.mem_layout.1) hl
  obtain rfl : t.emitted.toList = more := by simpa [hempty] using hemit
  exact ⟨hc ▸ hready, rfl, rfl, rfl, by simpa [hempty] using htiled⟩

/-- Every block is found by its label. -/
theorem Emitted.laid {c : Context} {code : Lowered} (h : Emitted src c code) : Laid src code := by
  have hranges := h.tiled.starts List.length_nil
  refine ⟨⟨_, h.ready, h.regs⟩, fun b hb => ?_, ?_⟩
  · exact find?_label (R := fun b range => Starts src _ b (src.func.instrsOf b) range.start)
      hranges (Func.mem_layout.2 (Array.getElem?_eq_getElem hb))
  · rw [← List.head?_map, h.tiled.map_label, ← Func.map_fst_layout, List.head?_map,
      List.head?_map, Option.map_map]
    rfl

/-- Compiling lays a function out. -/
theorem laid_of_compile (hcon : src.func.Coherent) {code : Lowered}
    (h : Compiler.compile src s = .ok code s') : Laid src code :=
  (emitted_of_compile hcon h).laid

/-! ### Reading the layout -/

section Laid

variable {code : Lowered} {j k : InstrId} {v : ValueId}

/-- Something was selected for every inserted instruction. -/
theorem Laid.selected (h : Laid src code) (hj : j ∈ src.func.inserted) :
    ∃ b is, SelectedFor src b j is := by
  obtain ⟨b, hb⟩ := Func.mem_inserted.1 hj
  obtain ⟨range, -, codes, rest, hcodes, -⟩ := h.block b (Func.lt_size_of_mem_instrsOf hb)
  obtain ⟨is, -, hsel⟩ := exists_mem_of_forall₂ hcodes hb
  exact ⟨b, is, hsel⟩

/-- What is selected for an instruction with a result, unless that is an address or a condition, is
carried in a register. -/
theorem Laid.isCarried (h : Laid src code) {ins : Codegen.Instr} (hj : j ∈ src.func.inserted)
    (hins : src.func.instrs[j]? = some ins) (hr : ins.hasResult = true)
    (ha : src.func.isAlloca j = false) (hc : ∀ p t x y, src.func.opOf j ≠ some (.icmp p t x y)) :
    ∃ op, ins.op = some op ∧ op.isCarried = true := by
  obtain ⟨b, is, ins', op, hins', hop, hsel⟩ := h.selected hj
  obtain rfl := Option.some.inj (hins.symm.trans hins')
  refine ⟨op, hop, ?_⟩
  have hopOf : src.func.opOf j = some op := by simp [Func.opOf, hins, hop]
  cases hsel with
  | phi | load | binary => rfl
  | alloca => simp [Func.isAlloca, hopOf] at ha
  | icmp => exact absurd hopOf (hc _ _ _ _)
  | store | br | condBr | ret =>
    simp [Codegen.Instr.hasResult, Codegen.Instr.type, hop, Operation.type] at hr

/-- Only branches read conditions. -/
theorem Laid.not_icmp (h : Laid src code) (hcon : src.func.Coherent) {op : Operation}
    (hi : i ∈ src.func.inserted) (hop : src.func.opOf i = some op) (hv : v ∈ op.args)
    (hbr : ∀ l r, op ≠ .condBr v l r) (hk : src.func.values[v]? = some (.result k))
    (hin : k ∈ src.func.inserted) (p : Predicate) (t : TypeId) (x y : ValueId) :
    src.func.opOf k ≠ some (.icmp p t x y) := by
  intro hicmp
  obtain ⟨_, _, ins, op', hins, hop', hsel⟩ := h.selected hin
  obtain rfl : op' = .icmp p t x y := by
    simpa [Func.opOf, hins, hop'] using hicmp
  obtain ⟨ins', hins', rfl⟩ := hcon.value_result hk
  obtain rfl := Option.some.inj (hins.symm.trans hins')
  cases hsel with
  | icmp huse =>
    obtain ⟨l, r, he⟩ := huse i hi op hop hv
    exact hbr l r he

/-- What an instruction reads is available, and no condition unless it branches on it. -/
theorem Laid.read (h : Laid src code) (hcon : src.func.Consistent) (hwf : src.func.WellFormed)
    (hr : src.func.Reachable b) {before after : List InstrId} {op : Operation}
    (hb : src.func.instrsOf b = before ++ i :: after) (hop : src.func.opOf i = some op)
    (hphi : op.isPhi = false) (hv : v ∈ op.args) (hbr : ∀ l r, op ≠ .condBr v l r) (k : InstrId)
    (hk : src.func.values[v]? = some (.result k)) :
    src.func.Available b before k ∧ k ∈ src.func.inserted ∧
      ∀ p t x y, src.func.opOf k ≠ some (.icmp p t x y) := by
  have hlive : src.func.Available b before k :=
    hwf.uses b hr before i after op hb hop hphi v hv k hk
  have hin := hlive.mem_inserted hcon
  have hi : i ∈ src.func.inserted := Func.mem_inserted.2 ⟨b, by simp [hb]⟩
  exact ⟨hlive, hin, h.not_icmp hcon hi hop hv hbr hk hin⟩

end Laid

end X86

end Codegen
