import Codegen.Proofs.Conversion
import Codegen.Proofs.GraphCheck

/-!
# The data edges of a graph

A conversion that hands on only nodes that it got when it asked for them makes nodes that read
earlier nodes of the same block. The node of an instruction may be asked for at any time after it
was made, by any instruction of the block, and it is there as long as the instruction has a result:
a conditional branch has none, and its two nodes are never read.

## Main definitions

* `Conversion.Tidy`: a conversion that reads some values and hands on only nodes that it got.
* `Func.OperandsYield`: no operand stands for the result of an instruction that has none.

## Main results

* `X86.tidy_converter`: the conversions of all operations are tidy.
* `X86.arranges_convert`: converting an instruction keeps a graph arranged.
-/

namespace Codegen

/-- Value `v` is no result of an instruction of type `void`. -/
def Func.Yields (f : Func) (v : ValueId) : Prop :=
  ∀ j ∈ f.values[v]?.bind (·.instr?), ∀ op ∈ f.opOf j, op.type ≠ TypeId.void

/-- The operands of the instructions in blocks that are results of instructions are no `void`s. -/
def Func.OperandsYield (f : Func) : Prop :=
  ∀ i ∈ f.inserted, ∀ op ∈ f.opOf i, ∀ v ∈ op.args, f.Yields v

instance (f : Func) : Decidable f.OperandsYield :=
  inferInstanceAs (Decidable (∀ i ∈ f.inserted, ∀ op ∈ f.opOf i, ∀ v ∈ op.args,
    ∀ j ∈ f.values[v]?.bind (·.instr?), ∀ op ∈ f.opOf j, op.type ≠ TypeId.void))

/-! ### Conversions that hand on what they got -/

namespace Conversion

variable {ω α β : Type} {reads : ValueId → Prop} {P Q : List NodeRef → α → Prop}
  {R : List NodeRef → β → Prop} {known : List NodeRef}

/-- A conversion that has got the nodes `known`, asks only for operands with `reads`, and hands on
only nodes that it has got. It ends with an answer that has property `P`, together with the nodes
that it has got by then. -/
def Tidy (reads : ValueId → Prop) (P : List NodeRef → α → Prop) :
    List NodeRef → Conversion ω α → Prop
  | known, done a => P known a
  | _, stop _ => True
  | known, inst _ args next => args ⊆ known ∧ ∀ n, Tidy reads P (some n :: known) (next n)
  | known, imm _ _ next => ∀ n, Tidy reads P (some n :: known) (next n)
  | known, vreg _ next => ∀ n, Tidy reads P (some n :: known) (next n)
  | known, slot _ next => ∀ n, Tidy reads P (some n :: known) (next n)
  | known, block _ next => ∀ n, Tidy reads P (some n :: known) (next n)
  | known, operand v next => reads v ∧ ∀ r, Tidy reads P (r :: known) (next r)
  | known, leaf _ next => ∀ n, Tidy reads P (some n :: known) (next n)

theorem Tidy.imp {c : Conversion ω α} (h : c.Tidy reads P known)
    (hPQ : ∀ known a, P known a → Q known a) : c.Tidy reads Q known := by
  induction c generalizing known with
  | done a => exact hPQ known a h
  | stop e => trivial
  | inst op args next ih => exact ⟨h.1, fun n => ih n (h.2 n)⟩
  | operand v next ih => exact ⟨h.1, fun r => ih r (h.2 r)⟩
  | imm x bits next ih => exact fun n => ih n (h n)
  | vreg r next ih => exact fun n => ih n (h n)
  | slot m next ih => exact fun n => ih n (h n)
  | block b next ih => exact fun n => ih n (h n)
  | leaf v next ih => exact fun n => ih n (h n)

@[simp] theorem tidy_bind {c : Conversion ω α} {k : α → Conversion ω β} :
    (c >>= k).Tidy reads R known ↔
      c.Tidy reads (fun known a => (k a).Tidy reads R known) known := by
  change (c.bind k).Tidy reads R known ↔ _
  induction c generalizing known with
  | done a => rfl
  | stop e => rfl
  | inst op args next ih => simp only [bind, Tidy, ih]
  | imm x bits next ih => simp only [bind, Tidy, ih]
  | vreg r next ih => simp only [bind, Tidy, ih]
  | slot m next ih => simp only [bind, Tidy, ih]
  | block b next ih => simp only [bind, Tidy, ih]
  | operand v next ih => simp only [bind, Tidy, ih]
  | leaf v next ih => simp only [bind, Tidy, ih]

@[simp] theorem tidy_pure {a : α} : (pure a : Conversion ω α).Tidy reads P known ↔ P known a := .rfl

@[simp] theorem tidy_throw {e : Stop} : (throw e : Conversion ω α).Tidy reads P known ↔ True := .rfl

@[simp] theorem tidy_lift {q : Except Stop α} :
    (liftM q : Conversion ω α).Tidy reads P known ↔ ∀ a, q = .ok a → P known a := by
  cases q with
  | ok a =>
    refine tidy_pure.trans ?_
    simp
  | error e =>
    refine tidy_throw.trans ?_
    simp

@[simp] theorem tidy_ite {p : Prop} [Decidable p] {c c' : Conversion ω α} :
    (if p then c else c').Tidy reads P known ↔
      (p → c.Tidy reads P known) ∧ (¬p → c'.Tidy reads P known) := by
  by_cases hp : p <;> simp [hp]

@[simp] theorem tidy_map {c : Conversion ω α} {f : α → β} :
    (f <$> c).Tidy reads R known ↔ c.Tidy reads (fun known a => R known (f a)) known := tidy_bind

@[simp] theorem tidy_makeInst {op : ω} {args : List NodeRef} {P : List NodeRef → NodeId → Prop} :
    (makeInst op args).Tidy reads P known ↔ args ⊆ known ∧ ∀ n, P (some n :: known) n := .rfl

@[simp] theorem tidy_makeBlock {b : BlockId} {P : List NodeRef → NodeId → Prop} :
    (makeBlock b : Conversion ω NodeId).Tidy reads P known ↔ ∀ n, P (some n :: known) n := .rfl

@[simp] theorem tidy_makeOperand {v : ValueId} {P : List NodeRef → NodeRef → Prop} :
    (makeOperand v : Conversion ω NodeRef).Tidy reads P known ↔
      reads v ∧ ∀ r, P (r :: known) r := .rfl

@[simp] theorem tidy_makeLeaf {v : ValueId} {P : List NodeRef → NodeId → Prop} :
    (makeLeaf v : Conversion ω NodeId).Tidy reads P known ↔ ∀ n, P (some n :: known) n := .rfl

end Conversion

/-! ### Graphs stay arranged -/

theorem Payload.kind_ne_root {ω : Type} (payload : Payload ω) : payload.kind ≠ .root := by
  cases payload <;> exact nofun

namespace Graph

variable {ω : Type} {g g' : Graph ω} {n m : NodeId} {b : BlockId} {payload : Payload ω}
  {args : List NodeRef}

theorem Offers.mono (h : g.Offers b m) (hg : g.Grows g') : g'.Offers b m := by
  obtain ⟨node, hm, hb, hkind⟩ := h
  obtain ⟨chain, hm⟩ := hg.node hm
  exact ⟨_, hm, hb, hkind⟩

theorem Offers.lt_size (h : g.Offers b m) : m < g.nodes.size := by
  obtain ⟨node, hm, -⟩ := h
  exact (Array.getElem?_eq_some_iff.1 hm).1

theorem Has.offers (h : g.Has n b payload args) : g.Offers b n := by
  obtain ⟨⟨chain, hn⟩, -⟩ := h
  exact ⟨_, hn, rfl, payload.kind_ne_root⟩

/-- Only the blocks, the kinds and the operands of the nodes matter, and the roots of the blocks. -/
theorem Arranged.congr (h : g.Arranged) (hg : g.Grows g') (hsize : g'.nodes.size = g.nodes.size)
    (hroots : g'.blocks.map (·.root) = g.blocks.map (·.root)) : g'.Arranged := by
  have hnode {n : NodeId} {node' : Node ω} (hn : g'.nodes[n]? = some node') :
      ∃ node chain, g.nodes[n]? = some node ∧ node' = { node with chain } := by
    have hlt : n < g.nodes.size := hsize ▸ (Array.getElem?_eq_some_iff.1 hn).1
    obtain ⟨chain, hn'⟩ := hg.node (Array.getElem?_eq_getElem hlt)
    exact ⟨_, chain, Array.getElem?_eq_getElem hlt, Option.some.inj (hn.symm.trans hn')⟩
  have hblocks : g'.blocks.size = g.blocks.size := by simpa using congrArg Array.size hroots
  refine ⟨fun hn => ?_, fun {n _ blk'} hn hkind hblk => ?_, fun hn r hr => ?_⟩
  · obtain ⟨node, chain, hold, rfl⟩ := hnode hn
    have hlt := h.block hold
    rwa [← hblocks] at hlt
  · obtain ⟨node, chain, hold, rfl⟩ := hnode hn
    have hroot : g.blocks[node.block]?.map (·.root) = some blk'.root := by
      rw [← Array.getElem?_map, ← hroots, Array.getElem?_map, hblk]
      rfl
    obtain ⟨blk, hblk, hsame⟩ := Option.map_eq_some_iff.1 hroot
    exact hsame ▸ h.root hold hkind hblk
  · obtain ⟨node, chain, hold, rfl⟩ := hnode hn
    obtain ⟨m, rfl, hlt, hm⟩ := h.arg hold r hr
    exact ⟨m, rfl, hlt, hm.mono hg⟩

/-- A node that is added may read what is there. If it is a root, its block has to name it. -/
theorem Arranged.push (h : g.Arranged) (hg : g.Grows g') {node : Node ω}
    (hnodes : g'.nodes = g.nodes.push node) (hsize : g'.blocks.size = g.blocks.size)
    (hold : ∀ {n : NodeId} {node : Node ω} {blk : Graph.Block}, g.nodes[n]? = some node →
      node.kind = .root → g'.blocks[node.block]? = some blk → blk.root = some n)
    (hblock : node.block < g.blocks.size)
    (hroot : ∀ blk, node.kind = .root → g'.blocks[node.block]? = some blk →
      Graph.Block.root blk = some g.nodes.size)
    (hargs : ∀ r ∈ node.args, ∃ m, r = some m ∧ g.Offers node.block m) : g'.Arranged := by
  have hcases {n : NodeId} {node' : Node ω} (hn : g'.nodes[n]? = some node') :
      g.nodes[n]? = some node' ∨ n = g.nodes.size ∧ node' = node := by
    rw [hnodes, Array.getElem?_push] at hn
    split at hn
    · next hlast => exact .inr ⟨hlast, (Option.some.inj hn).symm⟩
    · exact .inl hn
  refine ⟨fun hn => ?_, fun hn hkind hblk => ?_, fun hn r hr => ?_⟩
  · rw [hsize]
    rcases hcases hn with hn | ⟨rfl, rfl⟩
    · exact h.block hn
    · exact hblock
  · rcases hcases hn with hn | ⟨rfl, rfl⟩
    · exact hold hn hkind hblk
    · exact hroot _ hkind hblk
  · rcases hcases hn with hn | ⟨rfl, rfl⟩
    · obtain ⟨m, rfl, hlt, hm⟩ := h.arg hn r hr
      exact ⟨m, rfl, hlt, hm.mono hg⟩
    · obtain ⟨m, rfl, hm⟩ := hargs r hr
      exact ⟨m, rfl, hm.lt_size, hm.mono hg⟩

end Graph

namespace Builder

variable {ω : Type} {s s' : Builder ω} {n : NodeId} {i : InstrId} {payload : Payload ω}
  {args : List NodeRef}

/-- A graph stays arranged when nodes are put on a chain. -/
theorem arranged_chained (h : s.graph.Arranged) {node : Node ω}
    (hn : s.graph.nodes[n]? = some node) (head : NodeRef) :
    (s.chained n head).graph.Arranged :=
  h.congr (keeps_chained hn id : Keeps (fun _ => False) s _).graph
    (by simp [chained, Graph.updateNode]) rfl

theorem arranged_foldlM_prepend (h : s.graph.Arranged) {chain : List NodeRef}
    {head head' : NodeRef} (hrun : chain.foldlM (prepend i) head s = .ok head' s') :
    s'.graph.Arranged := by
  refine EStateM.foldlM_induction (fun _ s => s.graph.Arranged) ?_ h hrun
  intro head r head' s s' _ h hrun
  obtain ⟨n, node, -, -, hn, -, rfl⟩ := prepend_eq_ok hrun
  exact arranged_chained h hn head

/-- A graph stays arranged when a node of the current block is made. -/
theorem arranged_added (h : s.graph.Arranged) (hb : s.current < s.graph.blocks.size)
    (hargs : ∀ r ∈ args, ∃ m, r = some m ∧ s.graph.Offers s.current m) :
    (s.added (Node.make s.current payload args)).graph.Arranged :=
  h.push (keeps_added s _ : Keeps (fun _ => True) s _).graph rfl rfl h.root hb
    (fun _ hkind => absurd hkind payload.kind_ne_root) hargs

end Builder

namespace X86

open Conversion (tidy_bind tidy_pure tidy_throw tidy_lift tidy_ite tidy_map tidy_makeInst
  tidy_makeBlock tidy_makeOperand tidy_makeLeaf)

variable {src : Source} {c : Context} {s s' : Builder Opcode} {b : BlockId} {i : InstrId}
  {v : ValueId} {op : Operation} {result : Conversion.Result} {reads : ValueId → Prop}
  {known : List NodeRef} {ins : Codegen.Instr}

/-! ### The rules are tidy -/

theorem tidy_valueNode {P : List NodeRef → NodeRef × Bool → Prop} {leaf : Bool} (hv : reads v)
    (h : ∀ r isConst, P (r :: known) (r, isConst)) :
    (valueNode src c i v leaf).Tidy reads P known := by
  simp [valueNode, hv, h]

theorem tidy_regNode {P : List NodeRef → NodeRef → Prop} (hv : reads v)
    (h : ∀ r, P (r :: known) r) : (regNode src c i v).Tidy reads P known := by
  refine tidy_bind.2 (tidy_valueNode hv fun r isConst => ?_)
  simp [h]

theorem tidy_slotNode {P : List NodeRef → NodeRef → Prop} (hv : reads v)
    (h : ∀ r, P (r :: known) r) : (slotNode src c i v).Tidy reads P known := by
  simp [slotNode, hv, h]

/-- The operands of a phi are what was made for its incoming values. -/
theorem tidy_incomingNodes {incs : List (ValueId × BlockId)} (hv : ∀ inc ∈ incs, reads inc.1) :
    (incs.mapM (incomingNodes src c i)).Tidy reads
      (fun known' args => known ⊆ known' ∧ args.flatten ⊆ known') known := by
  induction incs generalizing known with
  | nil => simp
  | cons inc incs ih =>
    obtain ⟨hinc, hv⟩ := List.forall_mem_cons.1 hv
    simp only [List.mapM_cons, incomingNodes, tidy_bind]
    refine tidy_valueNode hinc fun r isConst => ?_
    simp only [tidy_makeBlock, tidy_pure]
    refine fun n => (ih hv).imp fun known' args hargs => ?_
    obtain ⟨⟨hn, hr, hknown⟩, hargs⟩ : (some n ∈ known' ∧ r ∈ known' ∧ known ⊆ known') ∧ _ := by
      simpa only [List.cons_subset] using hargs
    refine ⟨hknown, ?_⟩
    simpa only [List.flatten_cons, List.cons_append, List.nil_append, List.cons_subset] using
      ⟨hr, hn, hargs⟩

theorem tidy_convertPhi (hins : src.func.instrs[i]? = some ins) (hb : ins.block = some b)
    {t : TypeId} {incoming : List (ValueId × BlockId)} (hv : ∀ inc ∈ incoming, reads inc.1) :
    (convertPhi src c i t incoming).Tidy reads (fun _ _ => True) known := by
  simp only [convertPhi, tidy_ite, tidy_bind, tidy_lift, tidy_throw]
  refine ⟨fun _ _ _ => trivial, fun _ incs hincs => ?_⟩
  have hmem : ∀ inc ∈ incs, inc ∈ incoming := by
    intro inc hinc
    obtain ⟨p, -, hp⟩ := exists_mem_of_forall₂ (incomings_eq_ok hins hb hincs).flip hinc
    exact (incomingFrom_eq_ok hp).1
  exact (tidy_incomingNodes fun inc hinc => hv inc (hmem inc hinc)).imp fun known' args hargs =>
    tidy_makeInst.2 ⟨hargs.2, fun _ => trivial⟩

theorem tidy_convertLoad {t : TypeId} {addr : ValueId} (hv : reads addr) :
    (convertLoad src c i t addr).Tidy reads (fun _ _ => True) known := by
  simp only [convertLoad, tidy_bind, tidy_lift]
  exact fun _ _ => tidy_slotNode hv fun r => tidy_makeInst.2 ⟨by simp, fun _ => trivial⟩

theorem tidy_convertStore {w addr : ValueId} (hw : reads w) (hv : reads addr) :
    (convertStore src c i w addr).Tidy reads (fun _ _ => True) known := by
  simp only [convertStore, tidy_bind, tidy_lift]
  refine fun _ _ _ _ => tidy_slotNode hv fun mem => ?_
  exact tidy_valueNode hw fun r _ => tidy_makeInst.2 ⟨by simp, fun _ => trivial⟩

/-- Two values are asked for one after the other. -/
theorem tidy_pair {x y : ValueId} (hx : reads x) (hy : reads y) {m : Bool → Opcode} :
    (do let lhs ← regNode src c i x
        let (rhs, isConst) ← valueNode src c i y false
        Conversion.makeInst (m isConst) [lhs, rhs]).Tidy reads (fun _ _ => True) known := by
  refine tidy_bind.2 (tidy_regNode hx fun r => tidy_bind.2 (tidy_valueNode hy fun q _ => ?_))
  exact tidy_makeInst.2 ⟨by simp, fun _ => trivial⟩

theorem tidy_convertBinary {op : BinaryOp} {t : TypeId} {x y : ValueId} (hx : reads x)
    (hy : reads y) : (convertBinary src c i op t x y).Tidy reads (fun _ _ => True) known := by
  unfold convertBinary
  cases binaryOpcodes op with
  | none => trivial
  | some ops =>
    refine tidy_bind.2 (tidy_lift.2 fun _ _ => ?_)
    exact tidy_pair (m := fun isConst => if isConst then ops.2 else ops.1) hx hy

theorem tidy_convertIcmp {p : Predicate} {x y : ValueId} (hx : reads x) (hy : reads y) :
    (convertIcmp src c i p x y).Tidy reads (fun _ _ => True) known := by
  simp only [convertIcmp, tidy_bind (c := liftM _), tidy_lift]
  intro cmp hcmp
  have hreads : reads cmp.x ∧ reads cmp.y := by
    cases (comparison_eq_ok hcmp).2
    · exact ⟨hx, hy⟩
    · exact ⟨hy, hx⟩
  exact tidy_pair (m := fun isConst => if isConst then .cmpri32 else .cmprr32) hreads.1 hreads.2

theorem tidy_convertBr {target : BlockId} :
    (convertBr target).Tidy reads (fun _ _ => True) known := by
  simp [convertBr]

theorem tidy_convertCondBr {block : Option BlockId} {cond : ValueId} {l e : BlockId}
    (hv : reads cond) :
    (convertCondBr src c i block cond l e).Tidy reads (fun _ _ => True) known := by
  refine tidy_bind.2 (tidy_lift.2 fun cmp? _ => ?_)
  cases cmp? with
  | none => simp
  | some cmp =>
    simp [hv]

theorem tidy_convertRet {w : Option ValueId} (hw : ∀ v ∈ w, reads v) :
    (convertRet src c i w).Tidy reads (fun _ _ => True) known := by
  cases w with
  | none => trivial
  | some v =>
    simp only [convertRet, tidy_bind, tidy_lift]
    exact fun _ _ _ _ => tidy_valueNode (hw v rfl) fun r _ =>
      tidy_makeInst.2 ⟨by simp, fun _ => trivial⟩

/-- The conversion of every operation is tidy and reads nothing but the operands. -/
theorem tidy_converter (hb : src.func.blockOf i = some b)
    (hv : ∀ op ∈ src.func.opOf i, ∀ v ∈ op.args, reads v) :
    (converter src c i).Tidy reads (fun _ _ => True) known := by
  simp only [converter, tidy_bind (c := liftM _), tidy_lift, liftFault_eq_ok, Func.instr_eq_ok]
  intro ins hins
  have hblock : ins.block = some b := by simpa [Func.blockOf, hins] using hb
  have hv {op : Operation} (hop : ins.op = some op) : ∀ v ∈ op.args, reads v :=
    hv op (by simp [Func.opOf, hins, hop])
  cases hop : ins.op with
  | none => trivial
  | some op =>
    have hv := hv hop
    cases op with
    | alloca t e k a => simp
    | phi t incoming =>
      refine tidy_bind.2 (tidy_convertPhi hins hblock fun inc hinc => ?_)
      exact hv inc.1 (List.mem_map_of_mem hinc)
    | load t addr => exact tidy_bind.2 (tidy_convertLoad (hv addr (by simp [Operation.args])))
    | store w addr =>
      exact tidy_bind.2 (tidy_convertStore (hv w (by simp [Operation.args]))
        (hv addr (by simp [Operation.args])))
    | binary op t x y =>
      exact tidy_bind.2 (tidy_convertBinary (hv x (by simp [Operation.args]))
        (hv y (by simp [Operation.args])))
    | icmp p t x y =>
      exact tidy_bind.2 (tidy_convertIcmp (hv x (by simp [Operation.args]))
        (hv y (by simp [Operation.args])))
    | br target => exact tidy_bind.2 tidy_convertBr
    | condBr cond l e => exact tidy_convertCondBr (hv cond (by simp [Operation.args]))
    | ret w =>
      refine tidy_bind.2 (tidy_convertRet fun v hw => hv v ?_)
      simpa [Operation.args] using hw
    | sext | zext | getElementPtr | call => trivial

/-! ### Running tidy conversions -/

/-- An instruction that has a result and reserves no slot has a node for the result. -/
theorem Converted.offers (h : Converted src s b i op result)
    (ha : ∀ t e k a, op ≠ .alloca t e k a) (ht : op.type ≠ TypeId.void) :
    ∃ n, result.value = some n ∧ s.graph.Offers b n := by
  cases h with
  | alloca => exact absurd rfl (ha _ _ _ _)
  | condBr => exact absurd rfl ht
  | phi _ hn | br _ hn | ret _ _ hn | icmp _ _ _ hn | load _ _ _ _ hn | binary _ _ _ _ hn
  | store _ _ _ _ _ hn => exact ⟨_, rfl, hn.offers⟩

/-- A sound builder inside a block, with an arranged graph. The nodes `known` may be read. -/
structure Orderly (src : Source) (known : List NodeRef) (s : Builder Opcode) : Prop where
  sound : Sound src s
  arranged : s.graph.Arranged
  current : s.current < s.graph.blocks.size
  known : ∀ r ∈ known, ∃ m, r = some m ∧ s.graph.Offers s.current m

/-- Whatever is used to convert another instruction of the block keeps the graph arranged. -/
def Arranges (src : Source) (visit : InstrId → Builder.Build Opcode NodeRef) : Prop :=
  ∀ {i : InstrId} {s s' : Builder Opcode} {r : NodeRef}, Orderly src [] s →
    src.func.blockOf i = some s.current → visit i s = .ok r s' → s'.graph.Arranged

/-- What may be read still may be read later. -/
theorem Orderly.reaches (h : Orderly src known s) (hr : Reaches src s s')
    (ha : s'.graph.Arranged) : Orderly src known s' := by
  refine ⟨hr.sound, ha, ?_, fun r hmem => ?_⟩
  · rw [hr.keeps.current, hr.keeps.blocks]
    exact h.current
  · obtain ⟨m, rfl, hm⟩ := h.known r hmem
    exact ⟨m, rfl, hr.keeps.current.symm ▸ hm.mono hr.keeps.graph⟩

theorem Orderly.cons {r : NodeRef} {m : NodeId} (h : Orderly src known s) (hr : r = some m)
    (hm : s.graph.Offers s.current m) : Orderly src (r :: known) s :=
  ⟨h.sound, h.arranged, h.current, List.forall_mem_cons.2 ⟨⟨m, hr, hm⟩, h.known⟩⟩

/-- Making a node that reads known nodes. -/
theorem Orderly.added (h : Orderly src known s) {payload : Payload Opcode} {args : List NodeRef}
    (hargs : args ⊆ known) :
    Orderly src (some s.graph.nodes.size :: known)
      (s.added (Node.make s.current payload args)) := by
  have ha : (s.added (Node.make s.current payload args)).graph.Arranged :=
    Builder.arranged_added h.arranged h.current fun r hr => h.known r (hargs hr)
  refine (h.reaches (h.sound.added _) ha).cons rfl
    ⟨Node.make s.current payload args, ?_, rfl, payload.kind_ne_root⟩
  simp [Builder.added]

section Run

variable {visit : InstrId → Builder.Build Opcode NodeRef} {α : Type}

/-- What may be asked for: values that exist and yield something. -/
def Readable (src : Source) (v : ValueId) : Prop :=
  (∃ x, src.func.values[v]? = some x) ∧ src.func.Yields v

/-- The producer of an operand may be read. -/
theorem Orderly.operand (hcon : src.func.Coherent) (hvisit : Visits src visit)
    (harr : Arranges src visit) (hv : Readable src v) (h : Orderly src known s) {r : NodeRef}
    (hrun : Builder.runConversion src visit (Conversion.makeOperand v) s = .ok r s') :
    Orderly src (r :: known) s' := by
  obtain ⟨⟨x, hx⟩, hyields⟩ := hv
  rcases Builder.run_makeOperand hrun with ⟨j, hp, hj⟩ | ⟨-, n, rfl, hleaf⟩
  · have hslot : s.context.slot? v = none := by
      by_contra hsome
      simp [Builder.producer?, Option.isSome_iff_ne_none.2 hsome, Except.pure_eq_ok] at hp
    obtain ⟨rfl, hin, hblock⟩ := (producer?_eq_ok hcon h.sound.ready hx hslot hp).1 j rfl
    obtain ⟨hreach, result, hm, rfl⟩ := hvisit h.sound hblock hj
    obtain ⟨b, op, hb, hop, hconv⟩ := hreach.sound.converted hm
    obtain rfl := Option.some.inj (hb.symm.trans hblock)
    have halloca := isAlloca_of_slot?_eq_none h.sound.ready hslot hx hin
    obtain ⟨n, hn, hoffers⟩ := hconv.offers
      (fun t e k a he => by simp [Func.isAlloca, hop, he] at halloca)
      (hyields j (by simp [hx, Value.instr?]) op hop)
    have harranged := harr ⟨h.sound, h.arranged, h.current, by simp⟩ hblock hj
    exact (h.reaches hreach harranged).cons hn (hreach.keeps.current.symm ▸ hoffers)
  · obtain ⟨payload, -, rfl, rfl⟩ := Builder.run_makeLeaf hleaf
    exact h.added (List.nil_subset _)

/-- Running a tidy conversion keeps the graph arranged. -/
theorem Orderly.run (hcon : src.func.Coherent) (hvisit : Visits src visit)
    (harr : Arranges src visit) {c : Conversion Opcode α} {P : List NodeRef → α → Prop}
    (hc : c.Tidy (Readable src) P known) (h : Orderly src known s) {a : α}
    (hrun : Builder.runConversion src visit c s = .ok a s') : s'.graph.Arranged := by
  induction c generalizing known s with
  | done a =>
    obtain ⟨-, rfl⟩ := EStateM.pure_eq_ok.1 hrun
    exact h.arranged
  | stop e => exact absurd hrun EStateM.throw_ne_ok
  | inst op args next ih =>
    obtain ⟨n, t, hmake, hrun⟩ := EStateM.bind_eq_ok.1 hrun
    obtain ⟨rfl, rfl⟩ := Builder.make_eq_ok hmake
    exact ih _ (hc.2 _) (h.added hc.1) hrun
  | imm _ _ next ih | vreg _ next ih | slot _ next ih =>
    obtain ⟨n, t, hmake, hrun⟩ := EStateM.bind_eq_ok.1 hrun
    obtain ⟨rfl, rfl⟩ := Builder.make_eq_ok hmake
    exact ih _ (hc _) (h.added (List.nil_subset _)) hrun
  | block b next ih =>
    obtain ⟨n, t, hmake, hrun⟩ := EStateM.bind_eq_ok.1 hrun
    obtain ⟨l, -, rfl, rfl⟩ := Builder.makeBlock_eq_ok hmake
    exact ih _ (hc _) (h.added (List.nil_subset _)) hrun
  | leaf v next ih =>
    obtain ⟨n, t, hmake, hrun⟩ := EStateM.bind_eq_ok.1 hrun
    obtain ⟨payload, -, rfl, rfl⟩ := Builder.makeLeaf_eq_ok hmake
    exact ih _ (hc _) (h.added (List.nil_subset _)) hrun
  | operand v next ih =>
    have hbind : Conversion.operand v next = Conversion.makeOperand v >>= next := rfl
    rw [hbind, Builder.run_bind] at hrun
    obtain ⟨r, t, hoperand, hrun⟩ := hrun
    exact ih r (hc.2 r) (h.operand hcon hvisit harr hc.1 hoperand) hrun

end Run

/-- Converting an instruction of the current block, unless that was done before, keeps the graph
arranged. -/
theorem arranges_convert (hcon : src.func.Coherent) (hyield : src.func.OperandsYield)
    (fuel : Nat) : Arranges src (Builder.convert converter src fuel) := by
  induction fuel with
  | zero => exact fun _ _ h => absurd h EStateM.throw_ne_ok
  | succ fuel ih =>
    intro i s s' r hs hb h
    rcases Builder.convert_eq_ok h with ⟨result, hm, rfl, rfl⟩ | ⟨result, t, hm, hrun, rfl, rfl⟩
    · exact hs.arranged
    have hin : i ∈ src.func.inserted := Func.mem_inserted.2 ⟨s.current, hcon.mem_instrsOf.2 hb⟩
    have hread : ∀ op ∈ src.func.opOf i, ∀ v ∈ op.args, Readable src v := fun op hop v hv =>
      ⟨⟨_, Array.getElem?_eq_getElem
        (Func.operandsExist_of_users hs.sound.ready.users i hin op hop v hv)⟩,
        hyield i hin op hop v hv⟩
    have hbegun : Orderly src [] (s.remembered i .inProgress) :=
      ⟨hs.sound.begun hm, hs.arranged, hs.current, hs.known⟩
    change t.graph.Arranged
    exact hbegun.run hcon (visits_convert hcon fuel) ih (tidy_converter hb hread) hrun

end X86

end Codegen
