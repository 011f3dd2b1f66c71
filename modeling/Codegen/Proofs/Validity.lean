import Codegen.Proofs.Availability
import Codegen.Proofs.Drawing

/-!
# Graphs that are built pass the check

A builder converts the instructions of a block from the last to the first, and an operand when it is
first asked for, so that nodes are made in an order that depends on who asks first. It makes no
difference to what the check looks at: nodes read earlier nodes, and the chain is put together in
program order. Nothing is said about dominance, and the function need not have passed its own check.

## Main definitions

* `X86.ChainedAs`: the machine operations that an operation with effects is chained as.
* `X86.WellBuilt`: a graph with one root for each block, chains in program order and data edges
  without cycles.

## Main results

* `X86.Finished.wellBuilt`, `X86.Finished.valid`: graphs that were built.
* `X86.build_valid`: a graph that was built passes the check.
-/

namespace Codegen.X86

variable {src : Source} {s s' t : Builder Opcode} {g : Graph Opcode} {b : BlockId} {i : InstrId}
  {op : Operation} {result : Conversion.Result} {ns : List NodeId} {blk : Graph.Block}

/-- The machine operations that an operation with effects is chained as. A conditional branch is the
jump for a condition and then a jump. -/
inductive ChainedAs : Operation → List Opcode → Prop
  | phi {t : TypeId} {incoming : List (ValueId × BlockId)} : ChainedAs (.phi t incoming) [.phi]
  | load {t : TypeId} {addr : ValueId} : ChainedAs (.load t addr) [.movrm32]
  | store {w addr : ValueId} (isConst : Bool) :
      ChainedAs (.store w addr) [if isConst then .movmi32 else .movmr32]
  | br {target : BlockId} : ChainedAs (.br target) [.jmp]
  | condBr {cond : ValueId} {l e : BlockId} {c : Cond} {jump : Opcode}
      (h : c.jump? = some jump) : ChainedAs (.condBr cond l e) [jump, .jmp]
  | ret {w : ValueId} : ChainedAs (.ret (some w)) [.ret]

/-- Node `n` of block `b` performs machine operation `m`. -/
def Performs (g : Graph Opcode) (b : BlockId) (n : NodeId) (m : Opcode) : Prop :=
  ∃ args, g.Has n b (.inst m) args

/-- The nodes that an instruction of block `b` put on the chain perform its operation. -/
def Puts (src : Source) (g : Graph Opcode) (b : BlockId) (e : Effect) : Prop :=
  ∃ op ms, src.func.opOf e.instr = some op ∧ ChainedAs op ms ∧
    List.Forall₂ (Performs g b) e.nodes ms

/-- A graph that has one root for each block of a function. The chain of a block passes through the
nodes of its instructions with effects in program order, each once. A node reads earlier nodes of
its block that are no roots, and the data edges form no cycle. -/
structure WellBuilt (src : Source) (g : Graph Opcode) : Prop where
  root : ∀ b < src.func.blocks.size,
    ∃! n : NodeId, ∃ node, g.nodes[n]? = some node ∧ Node.kind node = .root ∧ node.block = b
  chain : ∀ b < src.func.blocks.size, ∃ blk, g.blocks[b]? = some blk ∧
    blk.effects.map (·.instr) = (src.func.instrsOf b).filter src.func.hasEffects ∧
    (∀ e ∈ blk.effects, Puts src g b e) ∧
    g.chainOrder b = .ok (blk.effects.flatMap (·.nodes)) ∧
    (blk.effects.flatMap (·.nodes)).Nodup
  arg : ∀ (n : NodeId) (node : Node Opcode), g.nodes[n]? = some node → ∀ r ∈ node.args,
    ∃ m node', r = some m ∧ m < n ∧ g.nodes[m]? = some node' ∧ node'.block = node.block ∧
      node'.kind ≠ .root
  acyclic : ∀ n, ¬Relation.TransGen g.Reads n n

/-- What an instruction with effects has chained. -/
theorem Converted.chainedAs (h : Converted src s b i op result) (he : op.hasEffects = true)
    (hns : result.chain = ns.map some) :
    ∃ ms, ChainedAs op ms ∧ List.Forall₂ (Performs s.graph b) ns ms := by
  have hinj : Function.Injective (some : NodeId → NodeRef) := fun _ _ => Option.some.inj
  cases h with
  | alloca | binary | icmp => cases he
  | @phi _ _ _ n _ hn =>
    obtain rfl : [n] = ns := hinj.list_map hns
    exact ⟨_, .phi, .cons ⟨_, hn⟩ .nil⟩
  | @load _ _ _ _ n _ _ _ _ hn =>
    obtain rfl : [n] = ns := hinj.list_map hns
    exact ⟨_, .load, .cons ⟨_, hn⟩ .nil⟩
  | @store _ _ _ _ n _ isConst _ _ _ _ _ hn =>
    obtain rfl : [n] = ns := hinj.list_map hns
    exact ⟨_, .store isConst, .cons ⟨_, hn⟩ .nil⟩
  | @br _ _ n _ hn =>
    obtain rfl : [n] = ns := hinj.list_map hns
    exact ⟨_, .br, .cons ⟨_, hn⟩ .nil⟩
  | @condBr _ _ _ _ _ _ _ _ cmp _ _ n _ n' _ _ _ hcmp _ _ hn _ hn' _ =>
    obtain rfl : [n, n'] = ns := hinj.list_map hns
    obtain ⟨c, hc⟩ : ∃ c : Cond, c.jump? = some cmp.jump := by
      cases (comparison_eq_ok hcmp).2 with
      | same h => exact ⟨_, h⟩
      | swapped h => exact ⟨_, h⟩
    exact ⟨_, .condBr hc, .cons ⟨_, hn⟩ (.cons ⟨_, hn'⟩ .nil)⟩
  | @ret _ _ n _ _ hn =>
    obtain rfl : [n] = ns := hinj.list_map hns
    exact ⟨_, .ret, .cons ⟨_, hn⟩ .nil⟩

/-- What is recorded of a block are nodes of its instructions. -/
theorem Sound.puts (hcon : src.func.Coherent) (hs : Sound src t) {nss : List (List NodeId)}
    (hlogged : Logged src t (src.func.instrsOf b) nss blk.effects) :
    ∀ e ∈ blk.effects, Puts src t.graph b e := by
  intro e he
  have hmem : e.instr ∈ (src.func.instrsOf b).filter src.func.hasEffects := by
    rw [← hlogged.recorded.map_instr]
    exact List.mem_map_of_mem he
  obtain ⟨hi, heffects⟩ := List.mem_filter.1 hmem
  obtain ⟨result, hm, hchain⟩ := hlogged.chains e he
  obtain ⟨c, op, hc, hop, hconv⟩ := hs.converted hm
  obtain rfl : b = c := Option.some.inj ((hcon.mem_instrsOf.1 hi).symm.trans hc)
  have heffects : op.hasEffects = true := by
    obtain ⟨ins, hins, hop⟩ := Option.bind_eq_some_iff.1 hop
    simpa [Func.hasEffects, Instr.hasEffects, hins, hop] using heffects
  obtain ⟨ms, hms, hperforms⟩ := hconv.chainedAs heffects hchain
  exact ⟨op, ms, hop, hms, hperforms⟩

theorem Finished.valid (h : Finished src g t) (hyield : src.func.OperandsYield) :
    g.Valid src.func := by
  obtain rfl := h.graph
  refine ⟨h.between.arranged hyield, h.between.size, fun {b blk} hb => ?_⟩
  obtain ⟨nss, hdrawn⟩ := h.drawn b (h.between.size ▸ (Array.getElem?_eq_some_iff.1 hb).1)
  obtain ⟨blk', hb', hthreaded, -⟩ := hdrawn.threaded
  obtain rfl := Option.some.inj (hb.symm.trans hb')
  exact hthreaded

theorem Finished.wellBuilt (hcon : src.func.Coherent) (h : Finished src g t)
    (hyield : src.func.OperandsYield) : WellBuilt src g := by
  obtain rfl := h.graph
  have harr := h.between.arranged hyield
  refine ⟨fun b hb => ?_, fun b hb => ?_, fun n node hn r hr => ?_, harr.not_transGen_reads⟩
  · obtain ⟨nss, hdrawn⟩ := h.drawn b hb
    obtain ⟨blk, hblk, hthreaded, -⟩ := hdrawn.threaded
    obtain ⟨n, node, hroot, hn, hblock, hkind, -⟩ := hthreaded.root
    refine ⟨n, ⟨node, hn, hkind, hblock⟩, ?_⟩
    rintro m ⟨node', hm, hkind', rfl⟩
    exact Option.some.inj ((harr.root hm hkind' hblk).symm.trans hroot)
  · obtain ⟨nss, hdrawn⟩ := h.drawn b hb
    obtain ⟨blk, hblk, hthreaded, hlogged⟩ := hdrawn.threaded
    exact ⟨blk, hblk, hlogged.recorded.map_instr, h.between.sound.puts hcon hlogged,
      hthreaded.chainOrder_eq_ok hblk, hthreaded.nodup⟩
  · obtain ⟨m, rfl, hlt, node', hm, hblock, hkind⟩ := harr.arg hn r hr
    exact ⟨m, node', rfl, hlt, hm, hblock, hkind⟩

/-- A graph that was built passes the check, whether the function did or not: every block has one
root, from which the chain passes through the nodes of its instructions with effects in program
order, and the data edges lead to earlier nodes of the same block. All that is asked of the function
is that no operand is the result of an instruction that has none. -/
theorem build_valid (hf : src.func.Drafted) (hyield : src.func.OperandsYield)
    (hbuild : Builder.build converter src s = .ok g s') :
    g.check src.func = .ok () ∧ WellBuilt src g := by
  obtain ⟨t, ht⟩ := finished_of_build hf.coherent hbuild
  exact ⟨(ht.valid hyield).check_eq_ok, ht.wellBuilt hf.coherent hyield⟩

/-- A function that adds its argument to a sum before that sum is computed. -/
def early : Source where
  types := Func.sampleTypes
  func := (Func.sampleStart.assemble []
    [[.binary .add 2 3 1, .binary .add 2 1 1, .ret (some 2)]]).getD Func.sampleStart

theorem built_early : early.func.Built := by
  simpa only [early] using Func.built_assembled _ _

/-- The graph of a loop with a conditional branch, and the graph of a function that does not pass
its own check. -/
theorem build_valid_samples :
    (Source.sample.func.OperandsYield ∧
      ∃ g s', Builder.build converter Source.sample {} = .ok g s' ∧
        g.check Source.sample.func = .ok () ∧ WellBuilt Source.sample g) ∧
    early.func.OperandsYield ∧ early.func.check early.types ≠ .ok () ∧
      ∃ g s', Builder.build converter early {} = .ok g s' ∧
        g.check early.func = .ok () ∧ WellBuilt early g := by
  have hyield : Source.sample.func.OperandsYield := by decide +kernel
  have hbuilds : EStateM.isOk (Builder.build converter Source.sample {}) = true := by decide +kernel
  obtain ⟨g, s, hbuild⟩ := EStateM.eq_ok_of_isOk hbuilds
  have hyield' : early.func.OperandsYield := by decide +kernel
  have hbuilds' : EStateM.isOk (Builder.build converter early {}) = true := by decide +kernel
  obtain ⟨g', s', hbuild'⟩ := EStateM.eq_ok_of_isOk hbuilds'
  exact ⟨⟨hyield, g, s, hbuild, build_valid Source.built_sample.drafted hyield hbuild⟩, hyield',
    by decide +kernel, g', s', hbuild', build_valid built_early.drafted hyield' hbuild'⟩

end Codegen.X86
