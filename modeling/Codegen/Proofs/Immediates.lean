import Codegen.Proofs.CycleSearch
import Codegen.Proofs.Definedness
import Codegen.Proofs.Leaves
import Codegen.Proofs.OperandTable
import Codegen.Proofs.Words

/-!
# What becomes an immediate

Lowering takes a value for a constant if no argument and no instruction in a block defines it. Apart
from the constants, this holds of the results of instructions that were given an operation but never
got into a block. Such a result counts as zero, and no error tells it from a constant. All other
values are registers, slots, or the nodes that produce them, in the order in which an operation
reads them.

## Main definitions

* `X86.CountsAs`: the number that a value is taken for.
* `X86.Rendered`, `X86.Depicted`: the operands and the nodes that stand for a value.
* `X86.Feeds`, `X86.Draws`: the values that an operation reads, in the order of its operands in code
  and in a graph.

## Main results

* `X86.Selected.renders`, `X86.Converted.depicts`: the operands of one instruction.
* `X86.immediates_of_lowering`: the operands of all instructions, and all numbers in a graph.
-/

namespace Codegen

namespace X86

variable {src : Source} {s s' : Builder Opcode} {g : Graph Opcode} {b : BlockId} {i j : InstrId}
  {v : ValueId} {op : Operation} {r : NodeRef}

/-! ### Numbers -/

/-- The number of some bits that a value is taken for. -/
inductive CountsAs (src : Source) (v : ValueId) : Int64 → Nat → Prop
  /-- A constant is its payload. -/
  | const {x : Int64} {t : TypeId} {bits : Nat} (hv : src.func.values[v]? = some (.const x t))
      (hbits : src.types.intBits t = .ok bits) : CountsAs src v x bits
  /-- The result of an instruction that is in no block is zero. -/
  | loose {j : InstrId} {ins : Codegen.Instr} {bits : Nat}
      (hv : src.func.values[v]? = some (.result j)) (hj : j ∉ src.func.inserted)
      (hins : src.func.instrs[j]? = some ins) (hbits : src.types.intBits ins.type = .ok bits) :
      CountsAs src v 0 bits

theorem Unproduced.countsAs (hn : src.func.Naming) {x : Value} {t : TypeId} {bits : Nat}
    (hu : Unproduced src.func v x) (hx : src.func.values[v]? = some x)
    (ht : src.func.valueType v = .ok t) (hbits : src.types.intBits t = .ok bits) :
    CountsAs src v x.payload bits := by
  by_cases hres : ∃ j, x = .result j
  · obtain ⟨j, rfl⟩ := hres
    obtain ⟨ins, hins, rfl⟩ := hn.value_result hx
    rw [Func.valueType_result hn hins] at ht
    cases ht
    exact .loose hx (unproduced_result.1 hu) hins hbits
  · obtain ⟨x, rfl, -⟩ := Unproduced.eq_const hn hu hx (fun j hj => absurd ⟨j, hj⟩ hres) ht hbits
    exact .const hx hbits

/-! ### Operands of instructions -/

/-- The operand that stands for a value in code. -/
inductive Rendered (src : Source) (v : ValueId) : Operand → Prop
  /-- A value that lives in a register and is no address. -/
  | reg (hv : src.func.InRegister v)
      (ha : ∀ j, src.func.values[v]? = some (.result j) → src.func.isAlloca j = false) :
      Rendered src v (.reg (src.func.regOf v))
  /-- An address. -/
  | slot {j : InstrId} (hv : src.func.values[v]? = some (.result j)) (hj : j ∈ src.func.inserted)
      (ha : src.func.isAlloca j = true) : Rendered src v (.slot (src.func.slotOf j))
  /-- A number that fits. -/
  | imm {x : Int64} {bits : Nat} {k : Int32} (hv : CountsAs src v x bits)
      (hk : imm32? x bits = some k) : Rendered src v (.imm32 k)

theorem Stands.rendered (hn : src.func.Naming) {o : Operand} (h : Stands src v o) :
    Rendered src v o := by
  cases h with
  | reg hv ha => exact .reg hv ha
  | imm hx hu ht hbits himm => exact .imm (Unproduced.countsAs hn hu hx ht hbits) himm

/-- Whether an operand stands for something that is used: it is neither a label nor a register that
is written. -/
def Operand.isSource (role : Role) : Operand → Bool
  | .label _ => false
  | .reg _ => !role.writes
  | _ => true

/-- The operands of an instruction that stand for what is used. All immediates are among them. -/
def Instr.sources (ins : Instr) : List Operand :=
  (ins.operands.filter fun o => o.2.isSource o.1).map Prod.snd

section Is

variable {ins : Instr} {code : Opcode} {os : List Operand}

/-- The operands of an instruction have the roles that the operation gives to their positions. -/
theorem Instr.Is.operands_getElem? (h : ins.Is code os) (k : Nat) :
    ins.operands[k]? = os[k]?.bind fun o => (code.specAt k).map fun spec => (spec.role, o) := by
  rw [h.getElem?_operands]
  cases hk : ins.operands[k]? with
  | none => rfl
  | some operand =>
    obtain ⟨spec, hspec, hrole, -⟩ := h.conforms.operand hk
    rw [h.op_eq] at hspec
    simp [hspec, ← hrole]

/-- The operands of an operation that reads its second one. -/
theorem Instr.Is.sources_pair {o₁ o₂ : Operand} {role : Role} (h : ins.Is code [o₁, o₂])
    (hroles : code.specs.map (·.role) = [role, .input]) (ho : o₂.isSource .input = true) :
    ins.sources = if o₁.isSource role then [o₁, o₂] else [o₂] := by
  have hoperands : ins.operands = [(role, o₁), (.input, o₂)] := by
    obtain ⟨s₁, l, hspecs, rfl, hl⟩ := List.map_eq_cons_iff.1 hroles
    obtain ⟨s₂, l, rfl, hrole, hl⟩ := List.map_eq_cons_iff.1 hl
    obtain rfl := List.map_eq_nil_iff.1 hl
    apply List.ext_getElem?
    intro k
    rw [h.operands_getElem?]
    rcases k with _ | _ | k
    · simp [Opcode.specAt, hspecs]
    · simp [Opcode.specAt, hspecs, hrole]
    · simp
  by_cases hfirst : o₁.isSource role = true <;> simp [Instr.sources, hoperands, hfirst, ho]

/-- Both forms of an operation read and write the same positions. -/
theorem roles_form (rr ri : Opcode) {roles : List Role} (hrr : rr.specs.map (·.role) = roles)
    (hri : ri.specs.map (·.role) = roles) (o : Operand) :
    (o.form rr ri).specs.map (·.role) = roles := by
  cases o <;> assumption

/-- Labels are nothing that is used. -/
theorem Instr.Is.sources_label {l : Label} (h : ins.Is code [.label l]) : ins.sources = [] := by
  have hall : ∀ o ∈ ins.operands, o.2 = .label l := by
    intro o ho
    have hmem := List.mem_map_of_mem (f := Prod.snd) ho
    rw [h.operands_eq] at hmem
    exact List.mem_singleton.1 hmem
  rw [Instr.sources, List.map_eq_nil_iff, List.filter_eq_nil_iff]
  intro o ho
  simp [hall o ho, Operand.isSource]

theorem Instr.Is.sources_nil (h : ins.Is code []) : ins.sources = [] := by
  have hnil : ins.operands = [] := List.map_eq_nil_iff.1 h.operands_eq
  rw [Instr.sources, hnil]
  rfl

/-- A phi uses all operands but the first. -/
theorem Instr.Is.sources_phi {q : Reg} (h : ins.Is .phi (.reg q :: os)) :
    ins.sources = os.filter (Operand.isSource .input) := by
  obtain ⟨⟨role, o⟩, rest, hoperands, rfl, hrest⟩ := List.map_eq_cons_iff.1 h.operands_eq
  have hfirst : role = .output := by
    have hrole := h.roleAt_eq (k := 0) (by rw [hoperands]; rfl)
    exact (Option.some.inj hrole).symm
  have hinput : ∀ o ∈ rest, o.1 = .input := by
    intro o ho
    obtain ⟨k, hk⟩ := List.getElem?_of_mem ho
    have hrole := h.roleAt_eq (k := k + 1) (by rw [hoperands]; exact hk)
    rw [roleAt_phi_succ] at hrole
    exact (Option.some.inj hrole).symm
  have hfilter : rest.filter (fun o => o.2.isSource o.1) =
      rest.filter ((Operand.isSource .input) ∘ Prod.snd) :=
    List.filter_congr fun o ho => by rw [hinput o ho]; rfl
  rw [Instr.sources, hoperands, List.filter_cons_of_neg (by simp [hfirst, Operand.isSource,
    Role.writes]), hfilter, ← hrest, List.filter_map]

end Is

/-! ### The code of an instruction -/

/-- The values that an operation of block `b` reads, in the order of the operands of its code. A
branch reads what is compared for its condition. -/
inductive Feeds (f : Func) (b : BlockId) : Operation → List ValueId → Prop
  | alloca {t e : TypeId} {k : UInt64} {a : UInt32} : Feeds f b (.alloca t e k a) []
  | phi {t : TypeId} {incoming : List (ValueId × BlockId)} {vs : List ValueId}
      (h : List.Forall₂ (fun p v => incoming.find? (·.2 == p) = some (v, p)) (f.predsOf b) vs) :
      Feeds f b (.phi t incoming) vs
  | load {t : TypeId} {addr : ValueId} : Feeds f b (.load t addr) [addr]
  | store {w addr : ValueId} : Feeds f b (.store w addr) [addr, w]
  | binary {op : BinaryOp} {t : TypeId} {x y : ValueId} : Feeds f b (.binary op t x y) [x, y]
  | icmp {p : Predicate} {t : TypeId} {x y : ValueId} : Feeds f b (.icmp p t x y) []
  | br {target : BlockId} : Feeds f b (.br target) []
  | condBr {cond x y x' y' : ValueId} {l e : BlockId} {j : InstrId} {p : Predicate} {t : TypeId}
      {jump : Opcode} (hcond : f.values[cond]? = some (.result j))
      (hj : f.opOf j = some (.icmp p t x y)) (h : Compares p x y x' y' jump) :
      Feeds f b (.condBr cond l e) [x', y']
  | ret {w : ValueId} : Feeds f b (.ret (some w)) [w]

/-- The operands of some instructions stand for the values that an operation of block `b` reads. -/
def Renders (src : Source) (b : BlockId) (op : Operation) (is : List Instr) : Prop :=
  ∃ vs, Feeds src.func b op vs ∧ List.Forall₂ (Rendered src) vs (is.flatMap Instr.sources)

theorem Rendered.isSource {o : Operand} (h : Rendered src v o) : o.isSource .input = true := by
  cases h <;> rfl

/-- The values that come in from the predecessors, and what stands for them. -/
theorem exists_rendered_of_comesIn (hn : src.func.Naming) {incoming : List (ValueId × BlockId)}
    {preds : List BlockId} {operands : List (List Operand)}
    (h : List.Forall₂ (ComesIn src incoming) preds operands) :
    ∃ vs, List.Forall₂ (fun p v => incoming.find? (·.2 == p) = some (v, p)) preds vs ∧
      List.Forall₂ (Rendered src) vs (operands.flatten.filter (Operand.isSource .input)) := by
  induction h with
  | nil => exact ⟨[], .nil, .nil⟩
  | cons hp _ ih =>
    obtain ⟨-, w, o, hfind, ho, rfl⟩ := hp
    obtain ⟨vs, hvs, hrest⟩ := ih
    have ho := ho.rendered hn
    have hlabel (l : Label) : (Operand.label l).isSource .input = false := rfl
    refine ⟨w :: vs, .cons hfind hvs, ?_⟩
    rw [List.flatten_cons, List.filter_append]
    simpa [ho.isSource, hlabel, -List.filter_flatten] using ⟨ho, hrest⟩

/-- The operands of the code for an operation stand for the values that the operation reads. -/
theorem Selected.renders (hn : src.func.Naming) {is : List Instr} (h : Selected src b v op is) :
    Renders src b op is := by
  cases h with
  | alloca => exact ⟨_, .alloca, .nil⟩
  | icmp => exact ⟨_, .icmp, .nil⟩
  | phi hins hv hin =>
    obtain ⟨vs, hvs, hrendered⟩ := exists_rendered_of_comesIn hn hin
    refine ⟨vs, .phi hvs, ?_⟩
    simpa [hins.sources_phi] using hrendered
  | load ht haddr hj hins hv hin =>
    refine ⟨_, .load, ?_⟩
    have hsources := hins.sources_pair rfl rfl
    simpa [hsources, Operand.isSource, Role.writes] using .slot haddr hin hj
  | store hw haddr hj ho hins hin =>
    have ho := ho.rendered hn
    have hsources := hins.sources_pair (roles_form .movmr32 .movmi32 rfl rfl _) ho.isSource
    refine ⟨_, .store, ?_⟩
    simpa [hsources, Operand.isSource] using ⟨.slot haddr hin hj, ho⟩
  | @binary bop t x y rr ri o copy ins hop ht hx ho hcopy hins hv =>
    have hx := hx.rendered hn
    have ho := ho.rendered hn
    have hroles : (o.form rr ri).specs.map (·.role) = [.inputOutput, .input] := by
      cases bop <;> cases hop
      · exact roles_form .addrr32 .addri32 rfl rfl o
      · exact roles_form .subrr32 .subri32 rfl rfl o
    have hfirst := hcopy.sources_pair rfl hx.isSource
    have hsecond := hins.sources_pair hroles ho.isSource
    refine ⟨_, .binary, ?_⟩
    simpa [hfirst, hsecond, Operand.isSource, Role.writes] using ⟨hx, ho⟩
  | br hins htarget =>
    refine ⟨_, .br, ?_⟩
    simp [hins.sources_label]
  | condBr hcond hj hx hcmp hx' ho hcompare htaken hother hl hr =>
    have hx' := hx'.rendered hn
    have ho := ho.rendered hn
    have hsources := hcompare.sources_pair (roles_form .cmprr32 .cmpri32 rfl rfl _) ho.isSource
    refine ⟨_, .condBr hcond hj hcmp, ?_⟩
    simpa [hsources, htaken.sources_label, hother.sources_label, Operand.isSource, Role.writes]
      using ⟨hx', ho⟩
  | ret hw ho hmove hins =>
    have ho := ho.rendered hn
    have hsources := hmove.sources_pair (roles_form .movrr32 .movri32 rfl rfl _) ho.isSource
    refine ⟨_, .ret, ?_⟩
    simpa [hsources, hins.sources_nil, Operand.isSource, Role.writes] using ho

/-- The code of a function is what stands for its instructions, in the order of the blocks. -/
theorem Tiled.exists_codes (hcon : src.func.Coherent) {n : Nat} {blks : List (BlockId × Block)}
    {ranges : List BlockRange} {code : List Instr}
    (hblks : ∀ b blk, (b, blk) ∈ blks → src.func.blocks[b]? = some blk)
    (h : Tiled src n blks ranges code) :
    ∃ codes, code = codes.flatten ∧ List.Forall₂ (fun i is => ∃ b op,
      src.func.blockOf i = some b ∧ src.func.opOf i = some op ∧ Renders src b op is)
        (blks.flatMap (·.2.instrs)) codes := by
  induction h with
  | nil => exact ⟨[], rfl, .nil⟩
  | @cons n b blk codes blks ranges rest hcodes _ ih =>
    obtain ⟨hblk, hblks⟩ := List.forall_mem_cons.1 fun p : BlockId × Block => hblks p.1 p.2
    obtain ⟨codes', rfl, hrest⟩ := ih fun b blk => hblks (b, blk)
    refine ⟨codes ++ codes', List.flatten_append.symm, List.rel_append ?_ hrest⟩
    have hblock : ∀ i ∈ src.func.instrsOf b, src.func.blockOf i = some b := fun i hi =>
      hcon.mem_instrsOf.1 hi
    change List.Forall₂ _ blk.instrs codes
    rw [← Func.instrs_eq_instrsOf hblk]
    refine ((List.forall₂_and_left _ _).2 ⟨hblock, hcodes⟩).imp fun i is hi => ?_
    obtain ⟨hi, ins, op, hins, hop, hsel⟩ := hi
    exact ⟨b, op, hi, by simp [Func.opOf, hins, hop], hsel.renders hcon.toNaming⟩

/-! ### Nodes of graphs -/

/-- The node that stands for a value in block `b`. -/
inductive Depicted (src : Source) (s : Builder Opcode) (b : BlockId) (v : ValueId) :
    NodeRef → Prop
  /-- A value that the block defines is the node of its instruction. -/
  | produced {j : InstrId} {result : Conversion.Result}
      (hv : src.func.values[v]? = some (.result j)) (hj : src.func.blockOf j = some b)
      (ha : src.func.isAlloca j = false) (hm : s.memo[j]? = some (.converted result)) :
      Depicted src s b v result.value
  /-- A value that lives in a register and is no address. -/
  | reg {n : NodeId} (hv : src.func.InRegister v)
      (ha : ∀ j, src.func.values[v]? = some (.result j) → src.func.isAlloca j = false)
      (hn : s.graph.Has n b (.vreg (src.func.regOf v)) []) : Depicted src s b v (some n)
  /-- An address. -/
  | slot {j : InstrId} {n : NodeId} (hv : src.func.values[v]? = some (.result j))
      (ha : src.func.isAlloca j = true) (hn : s.graph.Has n b (.slot (src.func.slotOf j)) []) :
      Depicted src s b v (some n)
  /-- A number. -/
  | imm {n : NodeId} {x : Int64} {bits : Nat} (hv : CountsAs src v x bits)
      (hn : s.graph.Has n b (.imm x bits) []) : Depicted src s b v (some n)

theorem Leaf.depicted (hn : src.func.Naming) (h : Leaf src s.graph b v r) :
    Depicted src s b v r := by
  cases h with
  | reg hv ha hreg => exact .reg hv ha hreg
  | imm hx hu ht hbits himm => exact .imm (Unproduced.countsAs hn hu hx ht hbits) himm

theorem Denotes.depicted (hn : src.func.Naming) (h : Denotes src s b v r) :
    Depicted src s b v r := by
  cases h with
  | produced hv hj ha hm => exact .produced hv hj ha hm
  | leaf hr _ => exact hr.depicted hn

/-- Whether a node is the leaf of a block. -/
def isLabel (g : Graph Opcode) (r : NodeRef) : Bool :=
  (r.bind (g.nodes[·]?)).any (·.kind == .block)

/-- The operands of a node other than labels. -/
def nodeSources (g : Graph Opcode) (n : NodeId) : List NodeRef :=
  (g.argsOf n).filter fun r => !isLabel g r

/-- The nodes that an instruction becomes. -/
def resultNodes (result : Conversion.Result) : List NodeId :=
  (if result.chain.isEmpty then [result.value] else result.chain).reduceOption

theorem isLabel_of_has {n : NodeId} {payload : Payload Opcode} {args : List NodeRef}
    (h : g.Has n b payload args) : isLabel g (some n) = (payload.kind == .block) := by
  obtain ⟨⟨chain, hn⟩, -⟩ := h
  simp [isLabel, hn, Node.make]

theorem argsOf_of_has {n : NodeId} {payload : Payload Opcode} {args : List NodeRef}
    (h : g.Has n b payload args) : g.argsOf n = args := by
  obtain ⟨⟨chain, hn⟩, -⟩ := h
  simp [Graph.argsOf, hn, Node.make]

/-- What an instruction becomes is no label. -/
theorem Converted.isLabel_value {result : Conversion.Result}
    (h : Converted src s b i op result) : isLabel s.graph result.value = false := by
  cases h with
  | alloca | condBr => rfl
  | phi _ hn | load _ _ _ _ hn | store _ _ _ _ _ hn | binary _ _ _ _ hn | icmp _ _ _ hn
  | br _ hn | ret _ _ hn => exact isLabel_of_has hn

theorem Depicted.isLabel_eq_false (hs : Sound src s) (h : Depicted src s b v r) :
    isLabel s.graph r = false := by
  cases h with
  | produced _ _ _ hm =>
    obtain ⟨d, op, -, -, hconv⟩ := hs.converted hm
    exact hconv.isLabel_value
  | reg _ _ hn | slot _ _ hn | imm _ hn => exact isLabel_of_has hn

/-- The values that an operation of block `b` reads, in the order of the operands of its nodes. -/
inductive Draws (f : Func) (b : BlockId) : Operation → List ValueId → Prop
  | alloca {t e : TypeId} {k : UInt64} {a : UInt32} : Draws f b (.alloca t e k a) []
  | phi {t : TypeId} {incoming : List (ValueId × BlockId)} {vs : List ValueId}
      (h : List.Forall₂ (fun p v => incoming.find? (·.2 == p) = some (v, p)) (f.predsOf b) vs) :
      Draws f b (.phi t incoming) vs
  | load {t : TypeId} {addr : ValueId} : Draws f b (.load t addr) [addr]
  | store {w addr : ValueId} : Draws f b (.store w addr) [addr, w]
  | binary {op : BinaryOp} {t : TypeId} {x y : ValueId} : Draws f b (.binary op t x y) [x, y]
  | icmp {p : Predicate} {t : TypeId} {x y x' y' : ValueId} {jump : Opcode}
      (h : Compares p x y x' y' jump) : Draws f b (.icmp p t x y) [x', y']
  | br {target : BlockId} : Draws f b (.br target) []
  | condBr {cond : ValueId} {l e : BlockId} : Draws f b (.condBr cond l e) [cond]
  | ret {w : ValueId} : Draws f b (.ret (some w)) [w]

/-- The operands of what an instruction became stand for the values that its operation reads. -/
def Depicts (src : Source) (s : Builder Opcode) (b : BlockId) (op : Operation)
    (result : Conversion.Result) : Prop :=
  ∃ vs, Draws src.func b op vs ∧
    List.Forall₂ (Depicted src s b) vs ((resultNodes result).flatMap (nodeSources s.graph))

/-- The values that come in from the predecessors, and the leaves for them. -/
theorem exists_depicted_of_incoming (hn : src.func.Naming) (hs : Sound src s)
    {incoming : List (ValueId × BlockId)} {preds : List BlockId} {args : List (List NodeRef)}
    (h : List.Forall₂ (Incoming src s.graph b incoming) preds args) :
    ∃ vs, List.Forall₂ (fun p v => incoming.find? (·.2 == p) = some (v, p)) preds vs ∧
      List.Forall₂ (Depicted src s b) vs (args.flatten.filter fun r => !isLabel s.graph r) := by
  induction h with
  | nil => exact ⟨[], .nil, .nil⟩
  | cons hp _ ih =>
    obtain ⟨hfind, hr, hm⟩ := hp
    obtain ⟨vs, hvs, hrest⟩ := ih
    have hr := hr.depicted (s := s) hn
    refine ⟨_ :: vs, .cons hfind hvs, ?_⟩
    rw [List.flatten_cons, List.filter_append]
    simpa [hr.isLabel_eq_false hs, isLabel_of_has hm, Payload.kind, -List.filter_flatten] using
      ⟨hr, hrest⟩

/-- An instruction that becomes one node, none of whose operands is a label. -/
theorem Depicts.of_has (hs : Sound src s) {n : NodeId} {payload : Payload Opcode}
    {args : List NodeRef} {vs : List ValueId} {result : Conversion.Result}
    (hnode : s.graph.Has n b payload args) (hresult : resultNodes result = [n])
    (hvs : Draws src.func b op vs) (h : List.Forall₂ (Depicted src s b) vs args) :
    Depicts src s b op result := by
  have hargs : args.filter (fun r => !isLabel s.graph r) = args := by
    refine List.filter_eq_self.2 fun r hr => ?_
    obtain ⟨v, -, hv⟩ := exists_mem_of_forall₂ h.flip hr
    simp [hv.isLabel_eq_false hs]
  refine ⟨vs, hvs, ?_⟩
  simpa [hresult, nodeSources, argsOf_of_has hnode, hargs] using h

theorem Converted.depicts (hn : src.func.Naming) (hs : Sound src s) {result : Conversion.Result}
    (h : Converted src s b i op result) : Depicts src s b op result := by
  cases h with
  | alloca => exact ⟨_, .alloca, .nil⟩
  | phi hargs hnode =>
    obtain ⟨vs, hvs, hdepicted⟩ := exists_depicted_of_incoming hn hs hargs
    refine ⟨vs, .phi hvs, ?_⟩
    simpa [resultNodes, nodeSources, Conversion.Result.chained, argsOf_of_has hnode] using hdepicted
  | load ht haddr hj hm hnode =>
    exact .of_has hs hnode rfl .load (.cons (.slot haddr hj hm) .nil)
  | store hw haddr hj hm hr hnode =>
    have hoperands := List.Forall₂.cons (Depicted.slot haddr hj hm) (.cons (hr.depicted hn) .nil)
    exact .of_has hs hnode rfl .store hoperands
  | binary hop ht hr hq hnode =>
    exact .of_has hs hnode rfl .binary (.cons (hr.depicted hn) (.cons (hq.depicted hn) .nil))
  | icmp hcmp hr hq hnode =>
    have hoperands := List.Forall₂.cons (hr.depicted hn) (.cons (hq.depicted hn) .nil)
    exact .of_has hs hnode rfl (.icmp (comparison_eq_ok hcmp).2) hoperands
  | br hm hnode =>
    refine ⟨_, .br, ?_⟩
    simp [resultNodes, nodeSources, Conversion.Result.chained, argsOf_of_has hnode,
      isLabel_of_has hm, Payload.kind]
  | condBr hcond hj hop hcmp hresult hm hnode hm' hnode' hlt =>
    have hcond := Depicted.produced hcond hj (by simp [Func.isAlloca, hop]) hresult
    refine ⟨_, .condBr, ?_⟩
    simpa [resultNodes, nodeSources, argsOf_of_has hnode, argsOf_of_has hnode',
      isLabel_of_has hm, isLabel_of_has hm', Payload.kind, hcond.isLabel_eq_false hs] using hcond
  | ret hw hr hnode => exact .of_has hs hnode rfl .ret (.cons (hr.depicted hn) .nil)

/-! ### Whole functions -/

/-- The code of a function is put together from the code of its instructions. -/
theorem exists_codes_of_compile (hcon : src.func.Coherent) {c c' : Compiler} {code : Lowered}
    (h : Compiler.compile src c = .ok code c') :
    ∃ codes, code.instrs.toList = codes.flatten ∧ List.Forall₂ (fun i is => ∃ b op,
      src.func.blockOf i = some b ∧ src.func.opOf i = some op ∧ Renders src b op is)
        src.func.inserted codes := by
  have hemitted := emitted_of_compile hcon h
  obtain ⟨codes, hflatten, hcodes⟩ :=
    hemitted.tiled.exists_codes hcon fun _ _ => Func.mem_layout.1
  rw [src.func.flatMap_layout] at hcodes
  exact ⟨codes, hflatten, hcodes⟩

/-- In the code of a function and in its graph, every operand stands for the value that is read
there, and a number stands for a constant or for the result of an instruction that is in no block.
-/
theorem immediates_of_lowering (hf : src.func.Drafted) :
    (∀ {c c' : Compiler} {code : Lowered}, Compiler.compile src c = .ok code c' →
      ∃ codes, code.instrs.toList = codes.flatten ∧ List.Forall₂ (fun i is => ∃ b op,
        src.func.blockOf i = some b ∧ src.func.opOf i = some op ∧ Renders src b op is)
          src.func.inserted codes) ∧
    ∀ {s s' : Builder Opcode} {g : Graph Opcode}, Builder.build converter src s = .ok g s' →
      (∀ {n : NodeId} {node : Node Opcode} {x : Int64} {bits : Int}, g.nodes[n]? = some node →
        node.payload = some (.imm x bits) →
          ∃ v k, bits = (k : Nat) ∧ Fetched src node.block v ∧ CountsAs src v x k) ∧
      ∀ i ∈ src.func.inserted, ∃ b op result, src.func.blockOf i = some b ∧
        src.func.opOf i = some op ∧ s'.memo[i]? = some (.converted result) ∧
          Depicts src { s' with graph := g } b op result := by
  have hcon := hf.coherent
  refine ⟨exists_codes_of_compile hcon, fun {s s' g} hbuild => ⟨fun {n node x bits} hn hx => ?_,
    fun i hi => ?_⟩⟩
  · obtain ⟨hready, hall⟩ := backed_of_build hcon hbuild
    obtain ⟨v, hv, hleaf⟩ := hall hn hx
    obtain ⟨y, hy⟩ := hv.exists_value hcon hready
    rcases leafPayload_cases hready hy hleaf with ⟨_, -, -, -, hp⟩ | ⟨hu, t, k, ht, hk, hp⟩ |
      ⟨-, -, hp⟩
    · cases hp
    · cases hp
      exact ⟨v, k, rfl, hv, Unproduced.countsAs hcon.toNaming hu hy ht hk⟩
    · cases hp
  · obtain ⟨b, hb⟩ := Func.mem_inserted.1 hi
    have hblock := hcon.mem_instrsOf.1 hb
    have hfinished := finished_with_graph hcon hbuild
    obtain ⟨op, result, hop, hm, hconv⟩ := hfinished.converted hcon hblock
    exact ⟨b, op, result, hblock, hop, hm, hconv.depicts hcon.toNaming hfinished.between.sound⟩

/-- A function that adds a sum to its argument, where the sum was never put into a block. -/
def adrift : Source where
  types := Func.sampleTypes
  func := (((Func.sampleStart.addBlock "").2.addInstr.2.updateInstr 0
    ({ · with op := some (.binary .add 2 1 1) })).appendAll
      [(0, .binary .add 2 1 2), (0, .ret (some 3))]).getD Func.sampleStart

theorem built_adrift : adrift.func.Built := by
  have hblank : (Func.sampleStart.addBlock "").2.addInstr.2.blockOf 0 = none := rfl
  have hset : (Func.sampleStart.addBlock "").2.addInstr.2.setOperation 0 (.binary .add 2 1 1) =
      .ok ((Func.sampleStart.addBlock "").2.addInstr.2.updateInstr 0
        ({ · with op := some (.binary .add 2 1 1) })) := rfl
  simpa only [adrift] using Func.built_sampleStart.getD fun _ hfunc =>
    ((Func.built_sampleStart.addBlock "").addInstr.setOperation hblank hset).appendAll hfunc

/-- The sum counts as zero, in the code and in the graph. -/
theorem immediates_of_lowering_adrift :
    adrift.func.values[2]? = some (.result 0) ∧ 0 ∉ adrift.func.inserted ∧
    (∃ code c' codes, Compiler.compile adrift {} = .ok code c' ∧
      code.instrs.toList.flatMap Instr.sources =
        [.reg (adrift.func.regOf 1), .imm32 0, .reg (adrift.func.regOf 3)] ∧
      code.instrs.toList = codes.flatten ∧ List.Forall₂ (fun i is => ∃ b op,
        adrift.func.blockOf i = some b ∧ adrift.func.opOf i = some op ∧ Renders adrift b op is)
          adrift.func.inserted codes) ∧
    ∃ g s' node v, Builder.build converter adrift {} = .ok g s' ∧ g.nodes[2]? = some node ∧
      node.payload = some (.imm 0 32) ∧ Fetched adrift node.block v ∧ CountsAs adrift v 0 32 := by
  obtain ⟨hcode, hgraph⟩ := immediates_of_lowering built_adrift.drafted
  have hcompiles : EStateM.gives (fun code => code.instrs.toList.flatMap Instr.sources =
      [.reg (adrift.func.regOf 1), .imm32 0, .reg (adrift.func.regOf 3)])
      (Compiler.compile adrift {}) = true := by
    decide +kernel
  have hbuilds : EStateM.gives (fun g => g.nodes[2]?.bind (·.payload) = some (.imm 0 32))
      (Builder.build converter adrift {}) = true := by
    decide +kernel
  obtain ⟨code, c', hcompile, hsources⟩ := EStateM.eq_ok_of_gives hcompiles
  obtain ⟨g, s', hbuild, hnode⟩ := EStateM.eq_ok_of_gives hbuilds
  obtain ⟨node, hn, hpayload⟩ := Option.bind_eq_some_iff.1 (of_decide_eq_true hnode)
  obtain ⟨codes, hflatten, hcodes⟩ := hcode hcompile
  obtain ⟨v, k, hk, hv, hcounts⟩ := (hgraph hbuild).1 hn hpayload
  obtain rfl : k = 32 := by omega
  exact ⟨by decide +kernel, by decide +kernel, ⟨code, c', codes, hcompile,
    of_decide_eq_true hsources, hflatten, hcodes⟩, g, s', node, v, hbuild, hn, hpayload, hv,
    hcounts⟩

end X86

end Codegen
