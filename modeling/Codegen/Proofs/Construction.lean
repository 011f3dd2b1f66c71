import Codegen.Module
import Codegen.Proofs.Answer

/-!
# Functions built step by step

A function comes from a module with nothing but its arguments, and grows by the steps of
`Codegen.Func`: blocks, constants and blank instructions are added, an instruction that is not yet
in a block gets its operation, and an instruction with an operation is inserted. The tables of such
a function agree with each other: every result belongs to its instruction, a block lists exactly the
instructions that say they are in it, and the edges between blocks are those of the branches.

## Main definitions

* `Func.instrsOf`, `Func.succsOf`, `Func.predsOf`: what a block number stands for, empty if there is
  no such block; `Func.opOf`, `Func.blockOf`: the operation and the place of an instruction.
* `Func.Built`: the functions that the steps give.
* `Func.Consistent`: the agreement of the tables.
* `Func.Drafted`, `Func.Coherent`: functions from steps in any order, and what still agrees in them.
* `TypeTable.Interned`: the tables to which types are added one by one.

## Main results

* `Func.Built.consistent`: every function that is built step by step is consistent.
* `Func.Drafted.coherent`: every function that is drafted is coherent.
* `TypeTable.Interned.kind_void`: the first type of a table is `void`.
-/

namespace Codegen

/-! ### Types -/

/-- The tables to which types are added one by one. -/
inductive TypeTable.Interned : TypeTable → Prop
  | start : Interned {}
  | intern {t : TypeTable} (ty : Ty) (ht : Interned t) : Interned (t.intern ty).2

/-- The first type of a table is `void`. -/
theorem TypeTable.Interned.kind_void {t : TypeTable} (h : t.Interned) :
    t.kind TypeId.void = .void := by
  have hfirst : t.entries[0]? = some .void := by
    induction h with
    | start => rfl
    | @intern t ty _ ih =>
      unfold TypeTable.intern
      split
      · exact ih
      · have hlt : 0 < t.entries.size := (Array.getElem?_eq_some_iff.1 ih).1
        rw [Array.getElem?_push, if_neg (Nat.ne_of_lt hlt), ih]
  simp [TypeTable.kind, TypeTable.get?, TypeId.void, hfirst, Ty.kind]

namespace Func

variable {f f' : Func} {b c s : BlockId} {i j : InstrId}

/-! ### Reading the tables -/

/-- The instructions of the block with a number. -/
def instrsOf (f : Func) (b : BlockId) : List InstrId := (f.blocks[b]?.map (·.instrs)).getD []

/-- The blocks to which the block with a number branches. -/
def succsOf (f : Func) (b : BlockId) : List BlockId := (f.blocks[b]?.map (·.succs)).getD []

/-- The blocks that branch to the block with a number. -/
def predsOf (f : Func) (b : BlockId) : List BlockId := (f.blocks[b]?.map (·.preds)).getD []

/-- The operation of the instruction with a number. -/
def opOf (f : Func) (i : InstrId) : Option Operation := f.instrs[i]?.bind (·.op)

/-- The block that holds the instruction with a number. -/
def blockOf (f : Func) (i : InstrId) : Option BlockId := f.instrs[i]?.bind (·.block)

theorem lt_size_of_mem_instrsOf (h : i ∈ f.instrsOf b) : b < f.blocks.size := by
  by_contra hb
  simp [instrsOf, Array.getElem?_eq_none (Nat.le_of_not_lt hb)] at h

theorem instrs_eq_instrsOf {blk : Block} (h : f.blocks[b]? = some blk) :
    f.instrsOf b = blk.instrs := by
  simp [instrsOf, h]

theorem preds_eq_predsOf {blk : Block} (h : f.blocks[b]? = some blk) :
    f.predsOf b = blk.preds := by
  simp [predsOf, h]

theorem succs_eq_succsOf {blk : Block} (h : f.blocks[b]? = some blk) :
    f.succsOf b = blk.succs := by
  simp [succsOf, h]

/-! ### Changing one entry -/

theorem getElem?_blocks_updateBlock (g : Block → Block) :
    (f.updateBlock b g).blocks[c]? = if c = b then f.blocks[b]?.map g else f.blocks[c]? := by
  unfold updateBlock
  split
  · next blk h => grind
  · next h => grind

theorem getElem?_instrs_updateInstr (g : Instr → Instr) :
    (f.updateInstr i g).instrs[j]? = if j = i then f.instrs[i]?.map g else f.instrs[j]? := by
  unfold updateInstr
  split
  · next ins h => grind
  · next h => grind

@[simp] theorem size_updateBlock (g : Block → Block) :
    (f.updateBlock b g).blocks.size = f.blocks.size := by
  unfold updateBlock
  split <;> simp

@[simp] theorem blocks_updateInstr (g : Instr → Instr) : (f.updateInstr i g).blocks = f.blocks := by
  unfold updateInstr
  split <;> rfl

@[simp] theorem values_updateInstr (g : Instr → Instr) : (f.updateInstr i g).values = f.values := by
  unfold updateInstr
  split <;> rfl

@[simp] theorem params_updateInstr (g : Instr → Instr) : (f.updateInstr i g).params = f.params := by
  unfold updateInstr
  split <;> rfl

@[simp] theorem instrs_updateBlock (g : Block → Block) : (f.updateBlock b g).instrs = f.instrs := by
  unfold updateBlock
  split <;> rfl

@[simp] theorem values_updateBlock (g : Block → Block) : (f.updateBlock b g).values = f.values := by
  unfold updateBlock
  split <;> rfl

@[simp] theorem params_updateBlock (g : Block → Block) : (f.updateBlock b g).params = f.params := by
  unfold updateBlock
  split <;> rfl

theorem instrsOf_updateBlock (g : Block → Block) (h : ∀ blk, (g blk).instrs = blk.instrs) :
    (f.updateBlock b g).instrsOf c = f.instrsOf c := by
  simp only [instrsOf, getElem?_blocks_updateBlock]
  split
  · next hc => subst hc; cases f.blocks[c]? <;> simp [h]
  · rfl

theorem instrsOf_updateInstr (g : Instr → Instr) :
    (f.updateInstr i g).instrsOf b = f.instrsOf b := by
  rw [instrsOf, blocks_updateInstr, instrsOf]

theorem opOf_updateInstr (g : Instr → Instr) :
    (f.updateInstr i g).opOf j =
      if j = i then (f.instrs[i]?.map g).bind (·.op) else f.opOf j := by
  simp only [opOf, getElem?_instrs_updateInstr]
  split <;> rfl

theorem blockOf_updateInstr (g : Instr → Instr) :
    (f.updateInstr i g).blockOf j =
      if j = i then (f.instrs[i]?.map g).bind (·.block) else f.blockOf j := by
  simp only [blockOf, getElem?_instrs_updateInstr]
  split <;> rfl

/-! ### Putting an instruction into a block -/

theorem instrsOf_attach (hb : b < f.blocks.size) :
    (f.attach b i).instrsOf c = if c = b then f.instrsOf b ++ [i] else f.instrsOf c := by
  simp only [attach, instrsOf, getElem?_blocks_updateBlock, blocks_updateInstr]
  split
  · simp [Array.getElem?_eq_getElem hb]
  · rfl

theorem succsOf_attach : (f.attach b i).succsOf c = f.succsOf c := by
  simp only [attach, succsOf, getElem?_blocks_updateBlock, blocks_updateInstr]
  split
  · next hc => subst hc; cases f.blocks[c]? <;> rfl
  · rfl

theorem predsOf_attach : (f.attach b i).predsOf c = f.predsOf c := by
  simp only [attach, predsOf, getElem?_blocks_updateBlock, blocks_updateInstr]
  split
  · next hc => subst hc; cases f.blocks[c]? <;> rfl
  · rfl

theorem getElem?_instrs_attach :
    (f.attach b i).instrs[j]? =
      if j = i then f.instrs[i]?.map ({ · with block := some b }) else f.instrs[j]? := by
  simp [attach, getElem?_instrs_updateInstr]

theorem opOf_attach : (f.attach b i).opOf j = f.opOf j := by
  simp only [opOf, getElem?_instrs_attach]
  split
  · next hj => subst hj; cases f.instrs[j]? <;> rfl
  · rfl

theorem blockOf_attach (hi : i < f.instrs.size) :
    (f.attach b i).blockOf j = if j = i then some b else f.blockOf j := by
  simp only [blockOf, getElem?_instrs_attach]
  split
  · simp [Array.getElem?_eq_getElem hi]
  · rfl

/-! ### Recording edges -/

/-- Records an edge whose target exists. -/
def connect (f : Func) (b target : BlockId) : Func :=
  (f.updateBlock b fun blk => { blk with succs := addOnce target blk.succs }).updateBlock target
    fun blk => { blk with preds := addOnce b blk.preds }

theorem mem_addOnce {x y : Nat} {xs : List Nat} : x ∈ addOnce y xs ↔ x ∈ xs ∨ x = y := by
  unfold addOnce
  split <;> grind

theorem nodup_addOnce {y : Nat} {xs : List Nat} (h : xs.Nodup) : (addOnce y xs).Nodup := by
  unfold addOnce
  split
  · exact h
  · grind

@[simp] theorem size_connect : (f.connect b s).blocks.size = f.blocks.size := by simp [connect]

@[simp] theorem instrs_connect : (f.connect b s).instrs = f.instrs := by simp [connect]

@[simp] theorem values_connect : (f.connect b s).values = f.values := by simp [connect]

theorem instrsOf_connect : (f.connect b s).instrsOf c = f.instrsOf c := by
  rw [connect, instrsOf_updateBlock, instrsOf_updateBlock] <;> simp

theorem succsOf_connect (hb : b < f.blocks.size) :
    (f.connect b s).succsOf c = if c = b then addOnce s (f.succsOf b) else f.succsOf c := by
  simp only [connect, succsOf, getElem?_blocks_updateBlock]
  have := Array.getElem?_eq_getElem hb
  grind

theorem predsOf_connect (hs : s < f.blocks.size) :
    (f.connect b s).predsOf c = if c = s then addOnce b (f.predsOf s) else f.predsOf c := by
  simp only [connect, predsOf, getElem?_blocks_updateBlock]
  have := Array.getElem?_eq_getElem hs
  grind

theorem link_eq_ok (h : link b s f = .ok () f') : s < f.blocks.size ∧ f' = f.connect b s := by
  simp only [link, EStateM.bind_eq_ok, EStateM.modify_eq_ok, EStateM.get_eq_ok] at h
  obtain ⟨_, g, rfl, _, _, ⟨rfl, rfl⟩, h⟩ := h
  split at h
  · next hs => exact ⟨by simpa using hs, (EStateM.set_eq_ok.1 h).symm⟩
  · exact absurd h EStateM.throw_ne_ok

/-- What an insertion does: the instruction goes to the end of the block, and then the edges of its
operation are recorded one after the other. -/
theorem insert_eq_ok (h : (insert b i).run f = .ok () f') :
    b < f.blocks.size ∧ f.blockOf i = none ∧ ∃ op, f.opOf i = some op ∧
      op.successors.forM (link b) (f.attach b i) = .ok () f' := by
  simp only [insert, EStateM.run, EStateM.bind_eq_ok, EStateM.get_eq_ok] at h
  obtain ⟨_, _, ⟨rfl, rfl⟩, h⟩ := h
  simp only [block, instr] at h
  cases hb : f.blocks[b]? with
  | none => simp [hb, EStateM.throw_ne_ok] at h
  | some blk =>
    have hlt : b < f.blocks.size := (Array.getElem?_eq_some_iff.1 hb).1
    cases hi : f.instrs[i]? with
    | none => simp [hb, hi, EStateM.throw_ne_ok] at h
    | some ins =>
      simp only [hb, hi] at h
      cases ho : ins.op with
      | none => simp [ho, EStateM.throw_ne_ok] at h
      | some op =>
        simp only [ho] at h
        split at h
        · simp [EStateM.bind_eq_ok, EStateM.throw_ne_ok] at h
        · next hblk =>
          obtain ⟨_, _, hset, h⟩ := EStateM.bind_eq_ok.1 h
          obtain rfl := EStateM.set_eq_ok.1 hset
          refine ⟨hlt, ?_, op, by simp [opOf, hi, ho], h⟩
          simpa [blockOf, hi] using hblk

/-! ### The steps -/

/-- The functions that are built step by step. An instruction gets no other operation once it is in
a block, and every step that gives an answer may be taken, so that a branch is inserted only if its
targets exist. -/
inductive Built : Func → Prop
  | new {m m' : Module} {name : String} {sig : TypeId} {f : Func}
      (h : m.addFunc name sig = .ok (f, m')) : Built f
  | addBlock {f : Func} (name : String) (hf : Built f) : Built (f.addBlock name).2
  | addConst {f : Func} (payload : Int64) (type : TypeId) (hf : Built f) :
      Built (f.addValue (.const payload type)).2
  | addInstr {f : Func} (hf : Built f) : Built f.addInstr.2
  | setOperation {f f' : Func} {i : InstrId} {op : Operation} (hf : Built f)
      (hi : f.blockOf i = none) (h : f.setOperation i op = .ok f') : Built f'
  | insert {f f' : Func} {b : BlockId} {i : InstrId} (hf : Built f)
      (h : (insert b i).run f = .ok () f') : Built f'

/-- Values belong to the instructions and the positions that they name. -/
structure Naming (f : Func) : Prop where
  /-- The result of an instruction is a value that names the instruction. -/
  result_value : ∀ {i : InstrId} {ins : Instr}, f.instrs[i]? = some ins →
    f.values[ins.result]? = some (.result i)
  /-- A value that names an instruction is the result of it. -/
  value_result : ∀ {v : ValueId} {i : InstrId}, f.values[v]? = some (.result i) →
    ∃ ins : Instr, f.instrs[i]? = some ins ∧ ins.result = v
  /-- An argument is the one at its position. -/
  arg_param : ∀ {v : ValueId} {n : Nat} {t : TypeId}, f.values[v]? = some (.arg n t) →
    f.params[n]? = some v
  /-- There is an argument at each position. -/
  param_arg : ∀ {n : Nat} {v : ValueId}, f.params[n]? = some v → ∃ t, f.values[v]? = some (.arg n t)

/-- Blocks list the instructions that are in them. -/
structure Placement (f : Func) : Prop where
  /-- A block lists the instructions that it holds. -/
  mem_instrsOf : ∀ {i b}, i ∈ f.instrsOf b ↔ f.blockOf i = some b
  /-- An instruction in a block has an operation. -/
  isSome_opOf : ∀ {i b}, f.blockOf i = some b → (f.opOf i).isSome
  /-- A block lists no instruction twice. -/
  nodup_instrsOf : ∀ b, (f.instrsOf b).Nodup

/-- A branch of one block leads to another. -/
def Branches (f : Func) (b s : BlockId) : Prop :=
  ∃ i ∈ f.instrsOf b, ∃ op, f.opOf i = some op ∧ s ∈ op.successors

/-- The recorded edges are those of the branches, less some that are still to be recorded. -/
structure Edges (f : Func) (pending : BlockId → BlockId → Prop) : Prop where
  /-- No block is recorded twice as a successor. -/
  nodup_succsOf : ∀ b, (f.succsOf b).Nodup
  /-- No block is recorded twice as a predecessor. -/
  nodup_predsOf : ∀ b, (f.predsOf b).Nodup
  /-- Every branch is recorded or pending, and nothing else is. -/
  branches_iff : ∀ b s, (s ∈ f.succsOf b ∨ pending b s) ↔ f.Branches b s
  /-- An edge is recorded at both ends. -/
  mem_predsOf : ∀ {b s}, b ∈ f.predsOf s ↔ s ∈ f.succsOf b
  /-- An edge leads to a block of the function. -/
  succ_lt : ∀ {b s}, s ∈ f.succsOf b → s < f.blocks.size

/-! ### What the steps keep -/

theorem new_blocks {m m' : Module} {name : String} {sig : TypeId}
    (h : m.addFunc name sig = .ok (f, m')) : f.blocks = #[] ∧ f.instrs = #[] := by
  simp only [Module.addFunc, Except.bind_eq_ok] at h
  obtain ⟨_, _, h⟩ := h
  obtain ⟨rfl, _⟩ := Prod.mk.inj (Except.pure_eq_ok.1 h)
  exact ⟨rfl, rfl⟩

/-- The arguments of a new function are its values from the second one on. -/
theorem new_values {m m' : Module} {name : String} {sig : TypeId}
    (h : m.addFunc name sig = .ok (f, m')) : ∃ types : List TypeId,
      (∀ n, f.params[n]? = types[n]?.map fun _ => n + 1) ∧
      f.values[0]? = some .absent ∧ ∀ n, f.values[n + 1]? = types[n]?.map (Value.arg n) := by
  simp only [Module.addFunc, Except.bind_eq_ok] at h
  obtain ⟨sig, _, h⟩ := h
  obtain ⟨rfl, _⟩ := Prod.mk.inj (Except.pure_eq_ok.1 h)
  refine ⟨sig.params, fun n => ?_, rfl, fun n => ?_⟩
  all_goals by_cases hn : n < sig.params.length <;> simp [hn]

theorem Naming.new {m m' : Module} {name : String} {sig : TypeId}
    (h : m.addFunc name sig = .ok (f, m')) : f.Naming := by
  obtain ⟨-, hi⟩ := new_blocks h
  obtain ⟨types, hp, hv0, hv⟩ := new_values h
  refine ⟨by simp [hi], fun {v i} hvi => ?_, fun {v n t} hvn => ?_, fun {n v} hn => ?_⟩
  · cases v with
    | zero => simp [hv0] at hvi
    | succ v => simp [hv] at hvi
  · cases v with
    | zero => simp [hv0] at hvn
    | succ v =>
      obtain ⟨t', ht, he⟩ := Option.map_eq_some_iff.1 ((hv v).symm.trans hvn)
      cases he
      simp [hp, ht]
  · rw [hp] at hn
    obtain ⟨t, ht, rfl⟩ := Option.map_eq_some_iff.1 hn
    exact ⟨t, by rw [hv, ht]; rfl⟩

theorem Placement.new {m m' : Module} {name : String} {sig : TypeId}
    (h : m.addFunc name sig = .ok (f, m')) : f.Placement := by
  obtain ⟨hb, hi⟩ := new_blocks h
  constructor <;> simp [instrsOf, blockOf, hb, hi]

theorem Edges.new {m m' : Module} {name : String} {sig : TypeId}
    (h : m.addFunc name sig = .ok (f, m')) : f.Edges fun _ _ => False := by
  obtain ⟨hb, -⟩ := new_blocks h
  constructor <;> simp [succsOf, predsOf, Branches, instrsOf, hb]

theorem instrsOf_addBlock (name : String) : (f.addBlock name).2.instrsOf b = f.instrsOf b := by
  simp only [addBlock, instrsOf, Array.getElem?_push]
  split <;> simp [*]

theorem succsOf_addBlock (name : String) : (f.addBlock name).2.succsOf b = f.succsOf b := by
  simp only [addBlock, succsOf, Array.getElem?_push]
  split <;> simp [*]

theorem predsOf_addBlock (name : String) : (f.addBlock name).2.predsOf b = f.predsOf b := by
  simp only [addBlock, predsOf, Array.getElem?_push]
  split <;> simp [*]

theorem opOf_addInstr : f.addInstr.2.opOf i = f.opOf i := by
  simp only [addInstr, opOf, Array.getElem?_push]
  split <;> simp [*]

theorem blockOf_addInstr : f.addInstr.2.blockOf i = f.blockOf i := by
  simp only [addInstr, blockOf, Array.getElem?_push]
  split <;> simp [*]

theorem setOperation_eq_ok {op : Operation} (h : f.setOperation i op = .ok f') :
    i < f.instrs.size ∧ f' = f.updateInstr i ({ · with op := some op }) := by
  simp only [setOperation, Except.bind_eq_ok] at h
  obtain ⟨ins, hi, h⟩ := h
  refine ⟨?_, (Except.pure_eq_ok.1 h).symm⟩
  unfold instr at hi
  split at hi
  · next h => exact (Array.getElem?_eq_some_iff.1 h).1
  · cases hi

/-! ### What the steps keep: names of values -/

private theorem getElem?_values_push {v : ValueId} {x y : Value} (h : f.values[v]? = some x) :
    (f.values.push y)[v]? = some x := by
  have hv : v < f.values.size := (Array.getElem?_eq_some_iff.1 h).1
  rw [Array.getElem?_push, if_neg (Nat.ne_of_lt hv), h]

theorem Naming.addConst (h : f.Naming) (payload : Int64) (type : TypeId) :
    (f.addValue (.const payload type)).2.Naming where
  result_value hi := getElem?_values_push (h.result_value hi)
  value_result hv := by
    rw [addValue, Array.getElem?_push] at hv
    split at hv
    · cases hv
    · exact h.value_result hv
  arg_param hv := by
    rw [addValue, Array.getElem?_push] at hv
    split at hv
    · cases hv
    · exact h.arg_param hv
  param_arg hn := by
    obtain ⟨t, ht⟩ := h.param_arg hn
    exact ⟨t, getElem?_values_push ht⟩

theorem Naming.addInstr (h : f.Naming) : f.addInstr.2.Naming where
  result_value {i ins} hi := by
    rw [Func.addInstr, Array.getElem?_push] at hi
    split at hi
    · next he =>
      cases hi
      simp [Func.addInstr, he]
    · exact getElem?_values_push (h.result_value hi)
  value_result {v i} hv := by
    rw [Func.addInstr, Array.getElem?_push] at hv
    split at hv
    · next he =>
      cases hv
      exact ⟨{ result := f.values.size }, by simp [Func.addInstr], he.symm⟩
    · obtain ⟨ins, hi, hr⟩ := h.value_result hv
      have hlt : i < f.instrs.size := (Array.getElem?_eq_some_iff.1 hi).1
      exact ⟨ins, by rw [Func.addInstr, Array.getElem?_push, if_neg (Nat.ne_of_lt hlt), hi], hr⟩
  arg_param hv := by
    rw [Func.addInstr, Array.getElem?_push] at hv
    split at hv
    · cases hv
    · exact h.arg_param hv
  param_arg hn := by
    obtain ⟨t, ht⟩ := h.param_arg hn
    exact ⟨t, getElem?_values_push ht⟩

/-- An instruction that is changed keeps the value of its result. -/
theorem Naming.updateInstr (h : f.Naming) {g : Instr → Instr}
    (hg : ∀ ins, (g ins).result = ins.result) : (f.updateInstr i g).Naming where
  result_value {j ins} hj := by
    rw [getElem?_instrs_updateInstr] at hj
    rw [values_updateInstr]
    split at hj
    · next he =>
      obtain ⟨old, hold, rfl⟩ := Option.map_eq_some_iff.1 hj
      rw [hg, he]
      exact h.result_value hold
    · exact h.result_value hj
  value_result {v j} hv := by
    rw [values_updateInstr] at hv
    obtain ⟨ins, hj, hr⟩ := h.value_result hv
    rw [getElem?_instrs_updateInstr]
    split
    · next he =>
      subst he
      exact ⟨g ins, by simp [hj], (hg ins).trans hr⟩
    · exact ⟨ins, hj, hr⟩
  arg_param hv := by
    rw [values_updateInstr] at hv
    rw [params_updateInstr]
    exact h.arg_param hv
  param_arg hn := by
    rw [params_updateInstr] at hn
    rw [values_updateInstr]
    exact h.param_arg hn

theorem Naming.updateBlock (h : f.Naming) (g : Block → Block) : (f.updateBlock b g).Naming where
  result_value hi := by
    rw [instrs_updateBlock] at hi
    rw [values_updateBlock]
    exact h.result_value hi
  value_result hv := by
    rw [values_updateBlock] at hv
    rw [instrs_updateBlock]
    exact h.value_result hv
  arg_param hv := by
    rw [values_updateBlock] at hv
    rw [params_updateBlock]
    exact h.arg_param hv
  param_arg hn := by
    rw [params_updateBlock] at hn
    rw [values_updateBlock]
    exact h.param_arg hn

theorem Naming.attach (h : f.Naming) : (f.attach b i).Naming := by
  have hg : ∀ ins : Instr, ({ ins with block := some b } : Instr).result = ins.result :=
    fun _ => rfl
  exact (h.updateInstr hg).updateBlock _

theorem Naming.connect (h : f.Naming) : (f.connect b s).Naming := (h.updateBlock _).updateBlock _

/-! ### What the steps keep: places of instructions -/

theorem Placement.addBlock (h : f.Placement) (name : String) : (f.addBlock name).2.Placement where
  mem_instrsOf {i b} := by
    rw [instrsOf_addBlock]
    exact h.mem_instrsOf
  isSome_opOf := h.isSome_opOf
  nodup_instrsOf b := by
    rw [instrsOf_addBlock]
    exact h.nodup_instrsOf b

theorem Placement.addInstr (h : f.Placement) : f.addInstr.2.Placement where
  mem_instrsOf {i b} := by
    rw [blockOf_addInstr]
    exact h.mem_instrsOf
  isSome_opOf hb := by
    rw [blockOf_addInstr] at hb
    rw [opOf_addInstr]
    exact h.isSome_opOf hb
  nodup_instrsOf := h.nodup_instrsOf

theorem blockOf_setOperation (op : Operation) :
    (f.updateInstr i ({ · with op := some op })).blockOf j = f.blockOf j := by
  rw [blockOf_updateInstr]
  split
  · next he =>
    subst he
    rw [blockOf]
    cases f.instrs[j]? <;> rfl
  · rfl

/-- The operation of an instruction makes no difference to the blocks. -/
theorem Placement.setOperation (h : f.Placement) (op : Operation) :
    (f.updateInstr i ({ · with op := some op })).Placement where
  mem_instrsOf {j b} := by
    rw [blockOf_setOperation, instrsOf_updateInstr]
    exact h.mem_instrsOf
  isSome_opOf {j b} hj := by
    rw [blockOf_setOperation] at hj
    rw [opOf_updateInstr]
    split
    · next he =>
      obtain ⟨ins, hins, -⟩ := Option.bind_eq_some_iff.1 hj
      simp [← he, hins]
    · exact h.isSome_opOf hj
  nodup_instrsOf b := by
    rw [instrsOf_updateInstr]
    exact h.nodup_instrsOf b

theorem lt_size_of_opOf {op : Operation} (h : f.opOf i = some op) : i < f.instrs.size := by
  by_contra hle
  simp [opOf, Array.getElem?_eq_none (Nat.le_of_not_lt hle)] at h

theorem Placement.attach {op : Operation} (h : f.Placement) (hb : b < f.blocks.size)
    (hi : f.blockOf i = none) (ho : f.opOf i = some op) : (f.attach b i).Placement := by
  have hlt := lt_size_of_opOf ho
  have hnot (c : BlockId) : i ∉ f.instrsOf c := by
    rw [h.mem_instrsOf, hi]
    exact fun h => by cases h
  refine ⟨fun {j c} => ?_, fun {j c} hj => ?_, fun c => ?_⟩
  · rw [instrsOf_attach hb, blockOf_attach hlt]
    have := h.mem_instrsOf (i := j) (b := c)
    have := hnot c
    grind
  · rw [blockOf_attach hlt] at hj
    rw [opOf_attach]
    split at hj
    · next he => simp [he, ho]
    · exact h.isSome_opOf hj
  · rw [instrsOf_attach hb]
    have := h.nodup_instrsOf c
    have := hnot b
    grind

/-- A block that is changed keeps its instructions. -/
theorem Placement.updateBlock (h : f.Placement) (g : Block → Block)
    (hg : ∀ blk, (g blk).instrs = blk.instrs) : (f.updateBlock b g).Placement where
  mem_instrsOf {j c} := by
    rw [instrsOf_updateBlock g hg, blockOf, instrs_updateBlock]
    exact h.mem_instrsOf
  isSome_opOf {j c} hj := by
    rw [blockOf, instrs_updateBlock] at hj
    rw [opOf, instrs_updateBlock]
    exact h.isSome_opOf hj
  nodup_instrsOf c := by
    rw [instrsOf_updateBlock g hg]
    exact h.nodup_instrsOf c

theorem Placement.connect (h : f.Placement) : (f.connect b s).Placement := by
  refine updateBlock ?_ _ fun _ => rfl
  exact h.updateBlock _ fun _ => rfl

/-! ### What the steps keep: edges -/

/-- The edges depend on nothing but what is recorded and on the branches. -/
theorem Edges.congr {p q : BlockId → BlockId → Prop} (h : f.Edges p)
    (hs : ∀ b, f'.succsOf b = f.succsOf b) (hp : ∀ b, f'.predsOf b = f.predsOf b)
    (hsize : f.blocks.size ≤ f'.blocks.size)
    (hq : ∀ b s, (s ∈ f.succsOf b ∨ q b s) ↔ f'.Branches b s) : f'.Edges q where
  nodup_succsOf b := by
    rw [hs]
    exact h.nodup_succsOf b
  nodup_predsOf b := by
    rw [hp]
    exact h.nodup_predsOf b
  branches_iff b s := by
    rw [hs]
    exact hq b s
  mem_predsOf := by
    intro b s
    rw [hp, hs]
    exact h.mem_predsOf
  succ_lt hbs := by
    rw [hs] at hbs
    exact Nat.lt_of_lt_of_le (h.succ_lt hbs) hsize

/-- Branches depend on the instructions of the blocks and on their operations. -/
theorem branches_congr (hi : ∀ b, f'.instrsOf b = f.instrsOf b)
    (ho : ∀ b, ∀ i ∈ f.instrsOf b, f'.opOf i = f.opOf i) : f'.Branches b s ↔ f.Branches b s := by
  simp only [Branches, hi]
  refine exists_congr fun i => and_congr_right fun hib => ?_
  rw [ho b i hib]

theorem Edges.addBlock {p : BlockId → BlockId → Prop} (h : f.Edges p) (name : String) :
    (f.addBlock name).2.Edges p := by
  refine h.congr (fun _ => succsOf_addBlock name) (fun _ => predsOf_addBlock name)
    (by simp [Func.addBlock]) fun b s => ?_
  rw [h.branches_iff]
  exact (branches_congr (fun _ => instrsOf_addBlock name) fun _ _ _ => rfl).symm

theorem Edges.addInstr {p : BlockId → BlockId → Prop} (h : f.Edges p) : f.addInstr.2.Edges p := by
  refine h.congr (fun _ => rfl) (fun _ => rfl) (Nat.le_refl _) fun b s => ?_
  have hb : f.addInstr.2.Branches b s ↔ f.Branches b s :=
    branches_congr (fun _ => rfl) fun _ _ _ => opOf_addInstr
  rw [h.branches_iff, hb]

theorem Edges.setOperation {p : BlockId → BlockId → Prop} (h : f.Edges p) (hpl : f.Placement)
    (hi : f.blockOf i = none) (op : Operation) :
    (f.updateInstr i ({ · with op := some op })).Edges p := by
  refine h.congr (fun _ => by simp [succsOf]) (fun _ => by simp [predsOf]) (by simp) fun b s => ?_
  rw [h.branches_iff]
  refine (branches_congr (fun _ => instrsOf_updateInstr _) fun c j hj => ?_).symm
  rw [opOf_updateInstr, if_neg]
  rintro rfl
  rw [hpl.mem_instrsOf, hi] at hj
  cases hj

/-- After an instruction is put into a block, the edges of its operation are pending. -/
theorem Edges.attach {op : Operation} (h : f.Edges fun _ _ => False) (hb : b < f.blocks.size)
    (ho : f.opOf i = some op) : (f.attach b i).Edges fun c s => c = b ∧ s ∈ op.successors := by
  refine h.congr (fun _ => succsOf_attach) (fun _ => predsOf_attach) (by simp [Func.attach])
    fun c s => ?_
  have hold := h.branches_iff c s
  simp only [or_false] at hold
  rw [hold]
  simp only [Branches, instrsOf_attach hb, opOf_attach]
  by_cases hc : c = b
  · subst hc
    simp [ho, or_and_right, exists_or]
  · simp [hc]

/-- An edge that is recorded is no longer pending. -/
theorem Edges.connect {rest : List BlockId} (h : f.Edges fun c t => c = b ∧ t ∈ s :: rest)
    (hb : b < f.blocks.size) (hs : s < f.blocks.size) :
    (f.connect b s).Edges fun c t => c = b ∧ t ∈ rest where
  nodup_succsOf c := by
    rw [succsOf_connect hb]
    split
    · exact nodup_addOnce (h.nodup_succsOf b)
    · exact h.nodup_succsOf c
  nodup_predsOf c := by
    rw [predsOf_connect hs]
    split
    · exact nodup_addOnce (h.nodup_predsOf s)
    · exact h.nodup_predsOf c
  branches_iff c t := by
    rw [branches_congr (fun _ => instrsOf_connect) fun _ _ _ => by rw [opOf, instrs_connect, opOf],
      ← h.branches_iff, succsOf_connect hb]
    split
    · next hc =>
      subst hc
      simp [mem_addOnce, or_assoc]
    · next hc => simp [hc]
  mem_predsOf := by
    intro c t
    have := h.mem_predsOf (b := c) (s := t)
    rw [succsOf_connect hb, predsOf_connect hs]
    grind [mem_addOnce]
  succ_lt := by
    intro c t hct
    rw [succsOf_connect hb] at hct
    rw [size_connect]
    split at hct
    · rcases mem_addOnce.1 hct with ht | rfl
      · exact h.succ_lt ht
      · exact hs
    · exact h.succ_lt hct

/-! ### Functions that are built -/

/-- The tables of a function agree with each other. -/
structure Consistent (f : Func) : Prop extends Naming f, Placement f where
  /-- The recorded edges are those of the branches. -/
  edges : f.Edges fun _ _ => False

theorem Consistent.mem_succsOf (h : f.Consistent) : s ∈ f.succsOf b ↔ f.Branches b s := by
  simpa using h.edges.branches_iff b s

/-- Recording all edges of a branch makes a function consistent. -/
theorem Consistent.forM_link {targets : List BlockId} (hn : f.Naming) (hp : f.Placement)
    (he : f.Edges fun c t => c = b ∧ t ∈ targets) (hb : b < f.blocks.size)
    (h : targets.forM (link b) f = .ok () f') : f'.Consistent := by
  induction targets generalizing f with
  | nil =>
    obtain ⟨-, rfl⟩ := EStateM.pure_eq_ok.1 h
    exact { toNaming := hn, toPlacement := hp, edges := by simpa using he }
  | cons s rest ih =>
    obtain ⟨_, g, hg, h⟩ := EStateM.bind_eq_ok.1 h
    obtain ⟨hs, rfl⟩ := link_eq_ok hg
    exact ih hn.connect hp.connect (he.connect hb hs) (by rwa [size_connect]) h

theorem Built.consistent (h : f.Built) : f.Consistent := by
  induction h with
  | new h => exact { toNaming := .new h, toPlacement := .new h, edges := .new h }
  | addBlock name _ ih =>
    exact {
      toNaming := ⟨ih.result_value, ih.value_result, ih.arg_param, ih.param_arg⟩
      toPlacement := ih.toPlacement.addBlock name
      edges := ih.edges.addBlock name }
  | addConst payload type _ ih =>
    exact {
      toNaming := ih.toNaming.addConst payload type
      toPlacement := ⟨ih.mem_instrsOf, ih.isSome_opOf, ih.nodup_instrsOf⟩
      edges := ih.edges.congr (fun _ => rfl) (fun _ => rfl) (Nat.le_refl _) ih.edges.branches_iff }
  | addInstr _ ih =>
    exact {
      toNaming := ih.toNaming.addInstr
      toPlacement := ih.toPlacement.addInstr
      edges := ih.edges.addInstr }
  | setOperation _ hi h ih =>
    obtain ⟨-, rfl⟩ := setOperation_eq_ok h
    exact {
      toNaming := ih.toNaming.updateInstr fun _ => rfl
      toPlacement := ih.toPlacement.setOperation _
      edges := ih.edges.setOperation ih.toPlacement hi _ }
  | insert _ h ih =>
    obtain ⟨hb, hi, op, ho, h⟩ := insert_eq_ok h
    exact Consistent.forM_link ih.toNaming.attach (ih.toPlacement.attach hb hi ho)
      (ih.edges.attach hb ho) (by simpa [attach] using hb) h

/-! ### Functions that are drafted -/

/-- The functions that come from steps in any order. Unlike one that is built, a drafted function
may have instructions in its blocks that got another operation later, and branches to blocks that
do not exist. -/
inductive Drafted : Func → Prop
  | new {m m' : Module} {name : String} {sig : TypeId} {f : Func}
      (h : m.addFunc name sig = .ok (f, m')) : Drafted f
  | addBlock {f : Func} (name : String) (hf : Drafted f) : Drafted (f.addBlock name).2
  | addConst {f : Func} (payload : Int64) (type : TypeId) (hf : Drafted f) :
      Drafted (f.addValue (.const payload type)).2
  | addInstr {f : Func} (hf : Drafted f) : Drafted f.addInstr.2
  | setOperation {f f' : Func} {i : InstrId} {op : Operation} (hf : Drafted f)
      (h : f.setOperation i op = .ok f') : Drafted f'
  | insert {f : Func} (b : BlockId) (i : InstrId) (hf : Drafted f) :
      Drafted (EStateM.after (insert b i) f)

theorem Built.drafted (h : f.Built) : f.Drafted := by
  induction h with
  | new h => exact .new h
  | addBlock name _ ih => exact ih.addBlock name
  | addConst payload type _ ih => exact ih.addConst payload type
  | addInstr _ ih => exact ih.addInstr
  | setOperation _ _ h ih => exact ih.setOperation h
  | insert _ h ih => exact EStateM.after_eq_of_ok h ▸ ih.insert _ _

/-- The values and the instructions of a function agree with each other, whatever the recorded edges
are. -/
structure Coherent (f : Func) : Prop extends Naming f, Placement f

theorem Consistent.coherent (h : f.Consistent) : f.Coherent := ⟨h.toNaming, h.toPlacement⟩

instance : Coe f.Consistent f.Coherent := ⟨Consistent.coherent⟩

theorem Coherent.updateBlock (h : f.Coherent) {g : Block → Block}
    (hg : ∀ blk, (g blk).instrs = blk.instrs) : (f.updateBlock b g).Coherent :=
  ⟨h.toNaming.updateBlock g, h.toPlacement.updateBlock g hg⟩

/-- Recording an edge changes no instruction, whether its target exists or not. -/
theorem Coherent.link (h : f.Coherent) : (EStateM.after (link b s) f).Coherent := by
  refine EStateM.after_bind Coherent (h.updateBlock fun _ => rfl) fun _ g _ hg => ?_
  refine EStateM.after_bind Coherent hg fun _ g' hget hg' => ?_
  obtain ⟨rfl, rfl⟩ := EStateM.get_eq_ok.1 hget
  split
  · exact hg'.updateBlock fun _ => rfl
  · exact hg'

/-- An insertion that stops leaves the function as it was, or with the instruction in the block and
some edges. -/
theorem Coherent.insert (h : f.Coherent) : (EStateM.after (insert b i) f).Coherent := by
  refine EStateM.after_bind Coherent h fun _ g hget _ => ?_
  obtain ⟨rfl, rfl⟩ := EStateM.get_eq_ok.1 hget
  split
  · exact h
  · exact h
  · next blk ins hblk hins =>
    split
    · exact h
    · next op hop =>
      split
      · exact h
      · next hnone =>
        have hb : b < f.blocks.size := by
          unfold block at hblk
          split at hblk
          · next hget => exact (Array.getElem?_eq_some_iff.1 hget).1
          · cases hblk
        have hi : f.instrs[i]? = some ins := by
          unfold instr at hins
          split at hins <;> simp_all
        have hattach : (f.attach b i).Coherent :=
          ⟨h.toNaming.attach, h.toPlacement.attach hb (by simpa [blockOf, hi] using hnone)
            (show f.opOf i = some op by simp [opOf, hi, hop])⟩
        refine EStateM.after_bind Coherent hattach fun _ g hset hg => ?_
        exact EStateM.after_forM Coherent (fun _ _ ht => ht.link) hg

theorem Drafted.coherent (h : f.Drafted) : f.Coherent := by
  induction h with
  | new h => exact ⟨.new h, .new h⟩
  | addBlock name _ ih =>
    exact ⟨⟨ih.result_value, ih.value_result, ih.arg_param, ih.param_arg⟩,
      ih.toPlacement.addBlock name⟩
  | addConst payload type _ ih =>
    exact ⟨ih.toNaming.addConst payload type, ih.mem_instrsOf, ih.isSome_opOf, ih.nodup_instrsOf⟩
  | addInstr _ ih => exact ⟨ih.toNaming.addInstr, ih.toPlacement.addInstr⟩
  | setOperation _ h ih =>
    obtain ⟨-, rfl⟩ := setOperation_eq_ok h
    exact ⟨ih.toNaming.updateInstr fun _ => rfl, ih.toPlacement.setOperation _⟩
  | insert b i _ ih => exact ih.insert

/-! ### Functions given by their blocks -/

/-- Adds an instruction with an operation at the end of a block. -/
def append (f : Func) (b : BlockId) (op : Operation) : Option Func :=
  match f.addInstr.2.setOperation f.instrs.size op with
  | .error _ => none
  | .ok g => match (insert b f.instrs.size).run g with
    | .error _ _ => none
    | .ok _ h => some h

/-- Adds instructions with operations at the ends of blocks. -/
def appendAll (f : Func) (ops : List (BlockId × Operation)) : Option Func :=
  ops.foldlM (fun f op => f.append op.1 op.2) f

/-- Adds constants to a function, and blocks with their operations. -/
def assemble (f : Func) (consts : List (Int64 × TypeId)) (blocks : List (List Operation)) :
    Option Func :=
  let f := consts.foldl (fun f c => (f.addValue (.const c.1 c.2)).2) f
  let f := blocks.foldl (fun f _ => (f.addBlock "").2) f
  f.appendAll (blocks.zipIdx.flatMap fun ops => ops.1.map (ops.2, ·))

theorem Built.append {op : Operation} (hf : f.Built) (h : f.append b op = some f') : f'.Built := by
  unfold Func.append at h
  split at h
  · cases h
  · next g hg =>
    have hblank : f.addInstr.2.blockOf f.instrs.size = none := by
      rw [blockOf_addInstr]
      simp [blockOf]
    split at h
    · cases h
    · next hi =>
      cases h
      exact (hf.addInstr.setOperation hblank hg).insert hi

theorem Built.appendAll {ops : List (BlockId × Operation)} (hf : f.Built)
    (h : f.appendAll ops = some f') : f'.Built := by
  induction ops generalizing f with
  | nil => exact Option.some.inj h ▸ hf
  | cons op ops ih =>
    rw [Func.appendAll, List.foldlM_cons] at h
    obtain ⟨g, hg, h⟩ := Option.bind_eq_some_iff.1 h
    exact ih (hf.append hg) h

theorem Built.assemble {consts : List (Int64 × TypeId)} {blocks : List (List Operation)}
    (hf : f.Built) (h : f.assemble consts blocks = some f') : f'.Built := by
  have hconsts : (consts.foldl (fun f c => (f.addValue (.const c.1 c.2)).2) f).Built :=
    List.foldlRecOn consts _ hf fun g hg c _ => hg.addConst c.1 c.2
  have hblocks := List.foldlRecOn blocks (fun f _ => (f.addBlock "").2) hconsts
    fun g hg _ _ => hg.addBlock ""
  exact hblocks.appendAll h

/-- What takes the place of a function that could not be put together is built by steps, too. -/
theorem Built.getD {o : Option Func} (hf : f.Built) (ho : ∀ g, o = some g → g.Built) :
    (o.getD f).Built := by
  cases o with
  | none => exact hf
  | some g => exact ho g rfl

/-! ### A function with a loop -/

/-- The types `i32`, `i1`, the opaque pointer and the functions from `i32` to `i32`, numbered from
two. -/
def sampleTypes : TypeTable :=
  { entries := #[.void, .int 32, .int 1, .pointer TypeId.invalid, .function 2 [2] false] }

theorem interned_sampleTypes : sampleTypes.Interned :=
  .intern (.function 2 [2] false) (.intern (.pointer TypeId.invalid) (.intern (.int 1)
    (.intern (.int 32) .start)))

/-- The blocks of a function that adds the numbers from its argument down to one to the argument, in
a stack slot. The last block cannot be reached and is a predecessor of the loop. -/
def sampleBlocks : List (List Operation) :=
  [[.alloca 4 2 1 4, .store 1 4, .br 1],
   [.phi 2 [(1, 0), (13, 2), (2, 4)], .icmp .eq 3 7 2, .condBr 8 3 2],
   [.load 2 4, .binary .add 2 10 7, .store 11 4, .binary .sub 2 7 3, .br 1],
   [.load 2 4, .ret (some 15)],
   [.br 1]]

/-- The function from `i32` to `i32` before it has any blocks. -/
def sampleStart : Func :=
  { index := 0, name := "sum", sig := 5, params := [1], values := #[.absent, .arg 0 2] }

/-- The function with these blocks. -/
def sample : Func := (sampleStart.assemble [(0, 2), (1, 2)] sampleBlocks).getD sampleStart

theorem built_sampleStart : sampleStart.Built := by
  have hstart : ({ name := "", types := sampleTypes } : Module).addFunc "sum" 5 =
      .ok (sampleStart, { name := "", types := sampleTypes, funcs := #[sampleStart] }) := rfl
  exact .new hstart

/-- Whatever blocks the function is given, it is built by steps. -/
theorem built_assembled (consts : List (Int64 × TypeId)) (blocks : List (List Operation)) :
    ((sampleStart.assemble consts blocks).getD sampleStart).Built :=
  built_sampleStart.getD fun _ h => built_sampleStart.assemble h

theorem built_sample : sample.Built := built_assembled _ _

end Func

end Codegen
