import Codegen.Proofs.Drawing
import Codegen.Proofs.Layout

/-!
# What the leaves of a graph stand for

A conversion can ask for registers, constants and slots of its own choice. The rules for machine
operations never do: they ask for the values that their instruction reads, so that every leaf of a
graph stands for such a value. A value is asked for as a leaf if it comes in at a phi, or if it is
not defined in the block. Nothing looks at what defines the value, and a comparison has a register
like any other result, although no operation of the machine writes it.

## Main definitions

* `Graph.All`, `Conversion.Makes`: the nodes of a graph, and those that a conversion makes.
* `X86.Fetched`: a value that a block asks for as a leaf.
* `X86.Backed`: a node that is no leaf, or the leaf of a value that is fetched.

## Main results

* `Builder.all_of_build`: the nodes of a graph are those that the conversions make.
* `X86.backed_of_build`: every leaf stands for a value that is fetched.
* `X86.vreg_of_build`: the registers that a graph asks for.
-/

namespace Codegen

/-- Every node of a graph stands for something that has property `N` in its block. -/
def Graph.All {ω : Type} (N : BlockId → Payload ω → Prop) (g : Graph ω) : Prop :=
  ∀ {n : NodeId} {node : Node ω} {payload : Payload ω}, g.nodes[n]? = some node →
    node.payload = some payload → N node.block payload

/-! ### The nodes that a conversion makes -/

namespace Conversion

variable {ω α β : Type} {src : Source} {c : Context} {b : BlockId} {N : Payload ω → Prop}
  {P Q : α → Prop} {R : β → Prop}

/-- A conversion whose nodes have property `N` when it is run for an instruction of block `b`, and
whose answer has property `P`. The values that it asks for are looked up in a context. -/
def Makes (src : Source) (c : Context) (b : BlockId) (N : Payload ω → Prop) (P : α → Prop) :
    Conversion ω α → Prop
  | done a => P a
  | stop _ => True
  | inst op _ next => N (.inst op) ∧ ∀ n, Makes src c b N P (next n)
  | imm x bits next => N (.imm x bits) ∧ ∀ n, Makes src c b N P (next n)
  | vreg r next => N (.vreg r) ∧ ∀ n, Makes src c b N P (next n)
  | slot m next => N (.slot m) ∧ ∀ n, Makes src c b N P (next n)
  | block t next => (∀ l, N (.block l t)) ∧ ∀ n, Makes src c b N P (next n)
  | operand v next =>
    (Builder.producer? src c b v = .ok none →
      ∀ payload, Builder.leafPayload src c v = .ok payload → N payload) ∧
        ∀ r, Makes src c b N P (next r)
  | leaf v next => (∀ payload, Builder.leafPayload src c v = .ok payload → N payload) ∧
      ∀ n, Makes src c b N P (next n)

@[simp] theorem makes_bind {x : Conversion ω α} {k : α → Conversion ω β} :
    (x >>= k).Makes src c b N R ↔ x.Makes src c b N fun a => (k a).Makes src c b N R := by
  change (x.bind k).Makes src c b N R ↔ _
  induction x with
  | done a => rfl
  | stop e => rfl
  | inst op args next ih => simp only [bind, Makes, ih]
  | imm x bits next ih => simp only [bind, Makes, ih]
  | vreg r next ih => simp only [bind, Makes, ih]
  | slot m next ih => simp only [bind, Makes, ih]
  | block t next ih => simp only [bind, Makes, ih]
  | operand v next ih => simp only [bind, Makes, ih]
  | leaf v next ih => simp only [bind, Makes, ih]

@[simp] theorem makes_pure {a : α} : (pure a : Conversion ω α).Makes src c b N P ↔ P a := .rfl

@[simp] theorem makes_throw {e : Stop} :
    (throw e : Conversion ω α).Makes src c b N P ↔ True := .rfl

@[simp] theorem makes_lift {q : Except Stop α} :
    (liftM q : Conversion ω α).Makes src c b N P ↔ ∀ a, q = .ok a → P a := by
  cases q with
  | ok a =>
    refine makes_pure.trans ?_
    simp
  | error e =>
    refine makes_throw.trans ?_
    simp

@[simp] theorem makes_ite {p : Prop} [Decidable p] {x y : Conversion ω α} :
    (if p then x else y).Makes src c b N P ↔
      (p → x.Makes src c b N P) ∧ (¬p → y.Makes src c b N P) := by
  by_cases hp : p <;> simp [hp]

@[simp] theorem makes_map {x : Conversion ω α} {f : α → β} :
    (f <$> x).Makes src c b N R ↔ x.Makes src c b N fun a => R (f a) := makes_bind

@[simp] theorem makes_makeInst {op : ω} {args : List NodeRef} {P : NodeId → Prop} :
    (makeInst op args).Makes src c b N P ↔ N (.inst op) ∧ ∀ n, P n := .rfl

@[simp] theorem makes_makeBlock {t : BlockId} {P : NodeId → Prop} :
    (makeBlock t : Conversion ω NodeId).Makes src c b N P ↔ (∀ l, N (.block l t)) ∧ ∀ n, P n := .rfl

@[simp] theorem makes_makeOperand {v : ValueId} {P : NodeRef → Prop} :
    (makeOperand v : Conversion ω NodeRef).Makes src c b N P ↔
      (Builder.producer? src c b v = .ok none →
        ∀ payload, Builder.leafPayload src c v = .ok payload → N payload) ∧ ∀ r, P r := .rfl

@[simp] theorem makes_makeLeaf {v : ValueId} {P : NodeId → Prop} :
    (makeLeaf v : Conversion ω NodeId).Makes src c b N P ↔
      (∀ payload, Builder.leafPayload src c v = .ok payload → N payload) ∧ ∀ n, P n := .rfl

end Conversion

/-! ### The nodes of a graph -/

namespace Builder

variable {ω : Type} {conv : Converter ω} {src : Source} {c : Context} {b : BlockId}
  {s s' : Builder ω} {i : InstrId} {r : NodeRef} {N : BlockId → Payload ω → Prop}

/-- A builder inside block `b` all of whose nodes have property `N`. -/
structure Stocked (N : BlockId → Payload ω → Prop) (c : Context) (b : BlockId) (s : Builder ω) :
    Prop where
  context : s.context = c
  current : s.current = b
  nodes : s.graph.All N

theorem Stocked.added (hs : Stocked N c b s) {payload : Payload ω} (hN : N b payload)
    (args : List NodeRef) : Stocked N c b (s.added (Node.make s.current payload args)) := by
  refine ⟨hs.context, hs.current, fun {n node p} hn hp => ?_⟩
  simp only [Builder.added, Array.getElem?_push] at hn
  split at hn
  · cases hn
    cases hp
    exact hs.current ▸ hN
  · exact hs.nodes hn hp

theorem Stocked.chained (hs : Stocked N c b s) (n : NodeId) (head : NodeRef) :
    Stocked N c b (s.chained n head) := by
  refine ⟨hs.context, hs.current, fun {m node p} hm hp => ?_⟩
  rw [nodes_chained] at hm
  split at hm
  · obtain ⟨old, hold, rfl⟩ := Option.map_eq_some_iff.1 hm
    have hN : N old.block p := hs.nodes hold hp
    exact hN
  · exact hs.nodes hm hp

/-- An instruction that has to be converted first stands in the block. -/
theorem blockOf_of_producer? {v : ValueId} (h : producer? src c b v = .ok (some i)) :
    src.func.blockOf i = some b := by
  simp only [producer?, ite_eq_iff, Except.pure_eq_ok, reduceCtorEq, and_false, false_or,
    Except.bind_eq_ok, liftFault_eq_ok] at h
  obtain ⟨-, d, -, h⟩ := h
  split at h
  · cases Except.pure_eq_ok.1 h
  · next j hj =>
    simp only [Except.bind_eq_ok, liftFault_eq_ok, Func.instr_eq_ok, ite_eq_iff,
      Except.pure_eq_ok, reduceCtorEq, and_false, or_false] at h
    obtain ⟨ins, hins, hblock, hji⟩ := h
    cases hji
    simpa [Func.blockOf, hins] using hblock

/-- Running a conversion makes the nodes that it asks for. -/
theorem Stocked.run {α : Type} {x : Conversion ω α} {P : α → Prop} {a : α}
    {visit : InstrId → Build ω NodeRef}
    (hvisit : ∀ {i s r s'}, src.func.blockOf i = some b → Stocked N c b s →
      visit i s = .ok r s' → Stocked N c b s')
    (hx : x.Makes src c b (N b) P) (hs : Stocked N c b s)
    (h : runConversion src visit x s = .ok a s') : Stocked N c b s' := by
  induction x generalizing s with
  | done a =>
    obtain ⟨-, rfl⟩ := EStateM.pure_eq_ok.1 h
    exact hs
  | stop e => exact absurd h EStateM.throw_ne_ok
  | inst op args next ih | imm x bits next ih | vreg r next ih | slot m next ih =>
    obtain ⟨n, t, hmake, h⟩ := EStateM.bind_eq_ok.1 h
    obtain ⟨-, rfl⟩ := make_eq_ok hmake
    exact ih _ (hx.2 n) (hs.added hx.1 _) h
  | block t next ih =>
    obtain ⟨n, t, hmake, h⟩ := EStateM.bind_eq_ok.1 h
    obtain ⟨l, -, -, rfl⟩ := makeBlock_eq_ok hmake
    exact ih _ (hx.2 n) (hs.added (hx.1 l) _) h
  | leaf v next ih =>
    obtain ⟨n, t, hmake, h⟩ := EStateM.bind_eq_ok.1 h
    obtain ⟨payload, hpayload, -, rfl⟩ := makeLeaf_eq_ok hmake
    exact ih _ (hx.2 n) (hs.added (hx.1 payload (hs.context ▸ hpayload)) _) h
  | operand v next ih =>
    have hbind : Conversion.operand v next = Conversion.makeOperand v >>= next := rfl
    rw [hbind, run_bind] at h
    obtain ⟨r, t, hoperand, h⟩ := h
    refine ih r (hx.2 r) ?_ h
    rcases run_makeOperand hoperand with ⟨j, hp, hj⟩ | ⟨hp, n, rfl, hleaf⟩
    · refine hvisit ?_ hs hj
      rw [← hs.current]
      exact blockOf_of_producer? hp
    · obtain ⟨payload, hpayload, -, rfl⟩ := run_makeLeaf hleaf
      rw [hs.context, hs.current] at hp
      exact hs.added (hx.1 hp payload (hs.context ▸ hpayload)) _

/-- Whatever conversions an instruction needs, all of them are for instructions of its block. -/
theorem Stocked.convert
    (hconv : ∀ {i b}, src.func.blockOf i = some b →
      (conv src c i).Makes src c b (N b) fun _ => True)
    (fuel : Nat) (hi : src.func.blockOf i = some b) (hs : Stocked N c b s)
    (h : Builder.convert conv src fuel i s = .ok r s') : Stocked N c b s' := by
  induction fuel generalizing i s r s' with
  | zero => exact absurd h EStateM.throw_ne_ok
  | succ fuel ih =>
    rcases convert_eq_ok h with ⟨-, -, -, rfl⟩ | ⟨result, t, -, hrun, -, rfl⟩
    · exact hs
    · have hbegun : Stocked N c b (s.remembered i .inProgress) :=
        ⟨hs.context, hs.current, hs.nodes⟩
      rw [hs.context] at hrun
      obtain ⟨hcontext, hcurrent, hnodes⟩ := hbegun.run ih (hconv hi) hrun
      exact ⟨hcontext, hcurrent, hnodes⟩

theorem Stocked.buildInstr
    (hconv : ∀ {i b}, src.func.blockOf i = some b →
      (conv src c i).Makes src c b (N b) fun _ => True)
    {tail tail' : Tail} (hi : src.func.blockOf i = some b) (hs : Stocked N c b s)
    (h : Builder.buildInstr conv src tail i s = .ok tail' s') : Stocked N c b s' := by
  obtain ⟨r, s₁, chain, s₂, ins, hconvert, hchain, -, -, hfold, -⟩ := buildInstr_eq_ok h
  have hs₁ := hs.convert hconv _ hi hconvert
  obtain rfl : s₁ = s₂ := by
    simp only [chainOf, EStateM.bind_eq_ok, memoOf_eq_ok] at hchain
    obtain ⟨m, _, ⟨-, rfl⟩, hchain⟩ := hchain
    cases m <;> exact (EStateM.pure_eq_ok.1 hchain).2
  refine EStateM.foldlM_induction (fun _ s => Stocked N c b s) ?_ hs₁ hfold
  intro head r head' s s' _ hs hprepend
  obtain ⟨n, node, -, -, -, -, rfl⟩ := prepend_eq_ok hprepend
  exact hs.chained n head

theorem all_buildBlocks
    (hconv : ∀ {i b}, src.func.blockOf i = some b →
      (conv src c i).Makes src c b (N b) fun _ => True)
    {blks : List (BlockId × Block)}
    (hblks : ∀ b blk, (b, blk) ∈ blks → ∀ i ∈ blk.instrs, src.func.blockOf i = some b)
    (hc : s.context = c) (hs : s.graph.All N) (h : buildBlocks conv src blks s = .ok () s') :
    s'.context = c ∧ s'.graph.All N := by
  induction blks generalizing s with
  | nil =>
    obtain ⟨-, rfl⟩ := EStateM.pure_eq_ok.1 h
    exact ⟨hc, hs⟩
  | cons blk blks ih =>
    obtain ⟨b, blk⟩ := blk
    simp only [buildBlocks, EStateM.bind_eq_ok, atPlace_eq_ok] at h
    obtain ⟨_, t, hblock, hrest⟩ := h
    obtain ⟨tail, u, hfold, rfl⟩ := buildBlock_eq_ok.1 hblock
    have hopened : Stocked N c b (s.opened b) := by
      refine ⟨hc, rfl, fun {n node payload} hn hp => ?_⟩
      -- The root stands for nothing.
      simp only [opened, added, Graph.updateBlock, Array.getElem?_push] at hn
      split at hn
      · cases hn
        cases hp
      · exact hs hn hp
    have hu : Stocked N c b u := by
      refine EStateM.foldlM_induction (fun _ s => Stocked N c b s) ?_ hopened hfold
      intro tail i tail' s s' hi hs hrun
      exact hs.buildInstr hconv (hblks b blk (by simp) i (List.mem_reverse.1 hi)) hrun
    obtain ⟨hcontext, -, hnodes⟩ := hu.chained s.graph.nodes.size tail.head
    exact ih (s := u.closed b s.graph.nodes.size tail)
      (fun b blk hmem => hblks b blk (List.mem_cons_of_mem _ hmem)) hcontext hnodes hrest

/-- The nodes of a graph are roots and those that the conversions of the instructions make. -/
theorem all_of_build (hcon : src.func.Coherent) {N : Context → BlockId → Payload ω → Prop}
    (hconv : ∀ {c i b}, Context.Ready src.func c → src.func.blockOf i = some b →
      (conv src c i).Makes src c b (N c b) fun _ => True)
    {g : Graph ω} (h : build conv src s = .ok g s') :
    Context.Ready src.func s'.context ∧ g.All (N s'.context) := by
  obtain ⟨s₁, t, hstart, hblocks, rfl, rfl⟩ := build_eq_ok.1 h
  obtain ⟨hinit, hgraph, -⟩ := start_eq_ok hstart
  have hready := Context.ready_of_init hcon hinit
  obtain ⟨-, -, hnodes, -⟩ := emptyGraph_eq_ok hgraph
  have hempty : s₁.graph.All (N s₁.context) := fun hn => by simp [hnodes] at hn
  have hblks : ∀ b blk, (b, blk) ∈ src.func.layout → ∀ i ∈ blk.instrs,
      src.func.blockOf i = some b := fun b blk hmem i hi =>
    hcon.mem_instrsOf.1 (Func.instrs_eq_instrsOf (Func.mem_layout.1 hmem) ▸ hi)
  obtain ⟨hcontext, hall⟩ := all_buildBlocks (hconv hready) hblks rfl hempty hblocks
  change Context.Ready src.func t.context ∧ t.graph.All (N t.context)
  rw [hcontext]
  exact ⟨hready, hall⟩

end Builder

namespace X86

open Conversion (makes_bind makes_pure makes_throw makes_lift makes_ite makes_map makes_makeInst
  makes_makeBlock makes_makeOperand makes_makeLeaf)

variable {src : Source} {c : Context} {s s' : Builder Opcode} {b : BlockId} {i : InstrId}
  {v : ValueId} {op : Operation} {ins : Codegen.Instr} {payload : Payload Opcode}

/-! ### The values that the rules ask for -/

/-- A value that block `b` asks for as a leaf. -/
inductive Fetched (src : Source) (b : BlockId) (v : ValueId) : Prop
  /-- It comes in at a phi of the block. -/
  | incoming {i : InstrId} {t : TypeId} {incoming : List (ValueId × BlockId)} {p : BlockId}
      (hi : src.func.blockOf i = some b) (hop : src.func.opOf i = some (.phi t incoming))
      (hv : (v, p) ∈ incoming)
  /-- It is an operand, other than a condition, that the block does not define, or an address. -/
  | operand {i : InstrId} {op : Operation} (hi : src.func.blockOf i = some b)
      (hop : src.func.opOf i = some op) (hv : v ∈ op.args) (hbr : ∀ l e, op ≠ .condBr v l e)
      (helse : ∀ j, src.func.values[v]? = some (.result j) → src.func.isAlloca j = false →
        src.func.blockOf j ≠ some b)

/-- A node that is no leaf for a value, or the leaf for a value that is fetched. -/
def Backed (src : Source) (c : Context) (b : BlockId) : Payload Opcode → Prop
  | .inst _ | .block _ _ => True
  | payload => ∃ v, Fetched src b v ∧ Builder.leafPayload src c v = .ok payload

theorem Fetched.backed (hv : Fetched src b v) (h : Builder.leafPayload src c v = .ok payload) :
    Backed src c b payload := by
  cases payload with
  | inst | block => trivial
  | imm | vreg | slot => exact ⟨v, hv, h⟩

/-- An operand that no instruction of the block produces is fetched. -/
theorem fetched_of_producer?_eq_none (hcon : src.func.Coherent) (hc : Context.Ready src.func c)
    (hi : src.func.blockOf i = some b) (hop : src.func.opOf i = some op) (hv : v ∈ op.args)
    (hbr : ∀ l e, op ≠ .condBr v l e) (h : Builder.producer? src c b v = .ok none) :
    Fetched src b v := by
  have hin : i ∈ src.func.inserted := Func.mem_inserted.2 ⟨b, hcon.mem_instrsOf.2 hi⟩
  have hlt := Func.operandsExist_of_users hc.users i hin op hop v hv
  refine .operand hi hop hv hbr fun j hj halloca hblock => ?_
  cases hslot : c.slot? v with
  | some m =>
    obtain ⟨k, hk, -, hkalloca, -⟩ := slot?_eq_some hc hslot
    cases hj.symm.trans hk
    simp [halloca] at hkalloca
  | none => exact (producer?_eq_ok hcon hc hj hslot h).2 rfl j rfl hblock

/-- A value that may be asked for: as a leaf only if it is fetched. -/
def Offered (src : Source) (c : Context) (b : BlockId) (v : ValueId) : Prop :=
  Builder.producer? src c b v = .ok none → Fetched src b v

theorem makes_valueNode {leaf : Bool} {P : NodeRef × Bool → Prop} (hv : Offered src c b v)
    (hleaf : leaf = true → Fetched src b v) (hP : ∀ a, P a) :
    (valueNode src c i v leaf).Makes src c b (Backed src c b) P := by
  have hoperand : Builder.producer? src c b v = .ok none →
      ∀ payload, Builder.leafPayload src c v = .ok payload → Backed src c b payload :=
    fun hp _ h => (hv hp).backed h
  have hmakes : leaf = true →
      ∀ payload, Builder.leafPayload src c v = .ok payload → Backed src c b payload :=
    fun hl _ h => (hleaf hl).backed h
  simp +contextual [valueNode, hP, hoperand, hmakes]

/-- A value that is not asked for as a leaf has to be offered only. -/
theorem makes_valueNode_false {P : NodeRef × Bool → Prop} (hv : Offered src c b v)
    (hP : ∀ a, P a) : (valueNode src c i v false).Makes src c b (Backed src c b) P :=
  makes_valueNode hv (fun h => absurd h Bool.false_ne_true) hP

theorem makes_regNode {P : NodeRef → Prop} (hv : Offered src c b v) (hP : ∀ r, P r) :
    (regNode src c i v).Makes src c b (Backed src c b) P := by
  refine makes_bind.2 (makes_valueNode_false hv fun a => ?_)
  simp [hP]

theorem makes_slotNode {P : NodeRef → Prop} (hv : Offered src c b v) (hP : ∀ r, P r) :
    (slotNode src c i v).Makes src c b (Backed src c b) P := by
  refine makes_bind.2 (makes_lift.2 fun _ _ => makes_makeOperand.2 ⟨fun hp payload h => ?_, hP⟩)
  exact (hv hp).backed h

theorem makes_incomingNodes {incs : List (ValueId × BlockId)} {P : List (List NodeRef) → Prop}
    (hv : ∀ inc ∈ incs, Fetched src b inc.1) (hP : ∀ args, P args) :
    (incs.mapM (incomingNodes src c i)).Makes src c b (Backed src c b) P := by
  induction incs generalizing P with
  | nil => simp [hP]
  | cons inc incs ih =>
    obtain ⟨hinc, hv⟩ := List.forall_mem_cons.1 hv
    simp only [List.mapM_cons, incomingNodes, makes_bind]
    refine makes_valueNode (fun _ => hinc) (fun _ => hinc) fun a => ?_
    exact makes_makeBlock.2 ⟨fun _ => trivial, fun _ => ih hv fun _ => hP _⟩

theorem makes_convertPhi (hins : src.func.instrs[i]? = some ins) (hb : ins.block = some b)
    {t : TypeId} {incoming : List (ValueId × BlockId)} {P : NodeId → Prop}
    (hv : ∀ inc ∈ incoming, Fetched src b inc.1) (hP : ∀ n, P n) :
    (convertPhi src c i t incoming).Makes src c b (Backed src c b) P := by
  simp only [convertPhi, makes_ite, makes_bind, makes_lift, makes_throw]
  refine ⟨fun _ _ _ => trivial, fun _ incs hincs => ?_⟩
  have hmem : ∀ inc ∈ incs, inc ∈ incoming := by
    intro inc hinc
    obtain ⟨p, -, hp⟩ := exists_mem_of_forall₂ (incomings_eq_ok hins hb hincs).flip hinc
    exact (incomingFrom_eq_ok hp).1
  exact makes_incomingNodes (fun inc hinc => hv inc (hmem inc hinc)) fun _ =>
    makes_makeInst.2 ⟨trivial, hP⟩

theorem makes_convertLoad {t : TypeId} {addr : ValueId} {P : NodeId → Prop}
    (hv : Offered src c b addr) (hP : ∀ n, P n) :
    (convertLoad src c i t addr).Makes src c b (Backed src c b) P :=
  makes_bind.2 (makes_lift.2 fun _ _ =>
    makes_bind.2 (makes_slotNode hv fun _ => makes_makeInst.2 ⟨trivial, hP⟩))

theorem makes_convertStore {w addr : ValueId} {P : NodeId → Prop} (hw : Offered src c b w)
    (hv : Offered src c b addr) (hP : ∀ n, P n) :
    (convertStore src c i w addr).Makes src c b (Backed src c b) P := by
  simp only [convertStore, makes_bind, makes_lift]
  exact fun _ _ _ _ => makes_slotNode hv fun _ =>
    makes_valueNode_false hw fun _ => makes_makeInst.2 ⟨trivial, hP⟩

/-- Two values are asked for one after the other. -/
theorem makes_pair {x y : ValueId} {m : Bool → Opcode} {P : NodeId → Prop}
    (hx : Offered src c b x) (hy : Offered src c b y) (hP : ∀ n, P n) :
    (do let lhs ← regNode src c i x
        let (rhs, isConst) ← valueNode src c i y false
        Conversion.makeInst (m isConst) [lhs, rhs]).Makes src c b (Backed src c b) P :=
  makes_bind.2 (makes_regNode hx fun _ => makes_bind.2 (makes_valueNode_false hy fun _ =>
    makes_makeInst.2 ⟨trivial, hP⟩))

theorem makes_convertBinary {op : BinaryOp} {t : TypeId} {x y : ValueId} {P : NodeId → Prop}
    (hx : Offered src c b x) (hy : Offered src c b y) (hP : ∀ n, P n) :
    (convertBinary src c i op t x y).Makes src c b (Backed src c b) P := by
  unfold convertBinary
  cases binaryOpcodes op with
  | none => trivial
  | some ops =>
    refine makes_bind.2 (makes_lift.2 fun _ _ => ?_)
    exact makes_pair (m := fun isConst => if isConst then ops.2 else ops.1) hx hy hP

theorem makes_convertIcmp {p : Predicate} {x y : ValueId} {P : NodeId → Prop}
    (hx : Offered src c b x) (hy : Offered src c b y) (hP : ∀ n, P n) :
    (convertIcmp src c i p x y).Makes src c b (Backed src c b) P := by
  refine makes_bind.2 (makes_lift.2 fun cmp hcmp => ?_)
  have hoffered : Offered src c b cmp.x ∧ Offered src c b cmp.y := by
    cases (comparison_eq_ok hcmp).2
    · exact ⟨hx, hy⟩
    · exact ⟨hy, hx⟩
  exact makes_pair (m := fun isConst => if isConst then .cmpri32 else .cmprr32) hoffered.1
    hoffered.2 hP

theorem makes_convertBr {target : BlockId} {P : NodeId → Prop} (hP : ∀ n, P n) :
    (convertBr target).Makes src c b (Backed src c b) P :=
  makes_bind.2 (makes_makeBlock.2 ⟨fun _ => trivial, fun _ => makes_makeInst.2 ⟨trivial, hP⟩⟩)

/-- A condition is never asked for as a leaf: its comparison stands in the block. -/
theorem makes_convertCondBr (hcon : src.func.Coherent) (hc : Context.Ready src.func c)
    {cond : ValueId} {x : Value} (hx : src.func.values[cond]? = some x) {l e : BlockId}
    {P : Conversion.Result → Prop} (hP : ∀ result, P result) :
    (convertCondBr src c i (some b) cond l e).Makes src c b (Backed src c b) P := by
  refine makes_bind.2 (makes_lift.2 fun cmp? hcmp? => ?_)
  rw [liftFault_eq_ok] at hcmp?
  cases cmp? with
  | none => simp
  | some cmp =>
    obtain ⟨j, p, x', y⟩ := cmp
    obtain ⟨hcond, hj, t, hop⟩ := icmp?_eq_ok hc hx hcmp?
    refine makes_bind.2 (makes_lift.2 fun cins hcins => ?_)
    refine makes_ite.2 ⟨fun _ => by simp, fun hb => ?_⟩
    rw [liftFault_eq_ok, Func.instr_eq_ok] at hcins
    have hblock : src.func.blockOf j = some b := by
      simpa [Func.blockOf, hcins] using hb
    have hoperand : Builder.producer? src c b cond ≠ .ok none := fun hp =>
      (producer?_eq_ok hcon hc hcond (slot?_eq_none hc hcond hop) hp).2 rfl j rfl hblock
    simp [hoperand, hP, Backed]

theorem makes_convertRet {w : Option ValueId} {P : NodeId → Prop}
    (hw : ∀ v ∈ w, Offered src c b v) (hP : ∀ n, P n) :
    (convertRet src c i w).Makes src c b (Backed src c b) P := by
  cases w with
  | none => trivial
  | some v =>
    simp only [convertRet, makes_bind, makes_lift]
    exact fun _ _ _ _ => makes_valueNode_false (hw v rfl) fun _ => makes_makeInst.2 ⟨trivial, hP⟩

/-- The conversion of every operation asks only for values that are fetched. -/
theorem makes_converter (hcon : src.func.Coherent) (hc : Context.Ready src.func c)
    (hb : src.func.blockOf i = some b) :
    (converter src c i).Makes src c b (Backed src c b) fun _ => True := by
  simp only [converter, makes_bind (x := liftM _), makes_lift, liftFault_eq_ok, Func.instr_eq_ok]
  intro ins hins
  have hblock : ins.block = some b := by simpa [Func.blockOf, hins] using hb
  cases hop : ins.op with
  | none => trivial
  | some op =>
    have hopOf : src.func.opOf i = some op := by simp [Func.opOf, hins, hop]
    have hoffered {v : ValueId} (hv : v ∈ op.args) (hbr : ∀ l e, op ≠ .condBr v l e) :
        Offered src c b v := fetched_of_producer?_eq_none hcon hc hb hopOf hv hbr
    cases op with
    | alloca t e k a => simp
    | phi t incoming =>
      exact makes_bind.2 (makes_convertPhi hins hblock
        (fun inc hinc => .incoming hb hopOf (p := inc.2) hinc) fun _ => trivial)
    | load t addr =>
      exact makes_bind.2 (makes_convertLoad (hoffered (by simp [Operation.args]) (by simp))
        fun _ => trivial)
    | store w addr =>
      exact makes_bind.2 (makes_convertStore (hoffered (by simp [Operation.args]) (by simp))
        (hoffered (by simp [Operation.args]) (by simp)) fun _ => trivial)
    | binary op t x y =>
      exact makes_bind.2 (makes_convertBinary (hoffered (by simp [Operation.args]) (by simp))
        (hoffered (by simp [Operation.args]) (by simp)) fun _ => trivial)
    | icmp p t x y =>
      exact makes_bind.2 (makes_convertIcmp (hoffered (by simp [Operation.args]) (by simp))
        (hoffered (by simp [Operation.args]) (by simp)) fun _ => trivial)
    | br target => exact makes_bind.2 (makes_convertBr fun _ => trivial)
    | condBr cond l e =>
      have hin : i ∈ src.func.inserted := Func.mem_inserted.2 ⟨b, hcon.mem_instrsOf.2 hb⟩
      have hlt := Func.operandsExist_of_users hc.users i hin _ hopOf cond (by simp [Operation.args])
      rw [hblock]
      exact makes_convertCondBr hcon hc (Array.getElem?_eq_getElem hlt) fun _ => trivial
    | ret w =>
      refine makes_bind.2 (makes_convertRet (fun v hw => hoffered ?_ (by simp)) fun _ => trivial)
      simpa [Operation.args] using hw
    | sext | zext | getElementPtr | call => trivial

/-- Every leaf of a graph stands for a value that its block fetches. -/
theorem backed_of_build (hcon : src.func.Coherent) {g : Graph Opcode}
    (h : Builder.build converter src s = .ok g s') :
    Context.Ready src.func s'.context ∧ g.All (Backed src s'.context) :=
  Builder.all_of_build hcon (fun hc hb => makes_converter hcon hc hb) h

/-! ### What a leaf says about its value -/

/-- The leaf of a value: a slot for an address, a number for what no instruction of a block and no
argument defines, and a register for all else. -/
theorem leafPayload_cases (hc : Context.Ready src.func c) {x : Value}
    (hx : src.func.values[v]? = some x) (h : Builder.leafPayload src c v = .ok payload) :
    (∃ j, x = .result j ∧ j ∈ src.func.inserted ∧ src.func.isAlloca j = true ∧
      payload = .slot (src.func.slotOf j)) ∨
    (Unproduced src.func v x ∧ ∃ t bits, src.func.valueType v = .ok t ∧
      src.types.intBits t = .ok bits ∧ payload = .imm x.payload bits) ∨
    (src.func.InRegister v ∧ (∀ j, x = .result j → src.func.isAlloca j = false) ∧
      payload = .vreg (src.func.regOf v)) := by
  cases hslot : c.slot? v with
  | some m =>
    obtain ⟨j, hj, hin, halloca, rfl⟩ := slot?_eq_some hc hslot
    obtain rfl := Option.some.inj (hx.symm.trans hj)
    rw [Builder.leafPayload, hslot] at h
    exact .inl ⟨j, rfl, hin, halloca, (Except.pure_eq_ok.1 h).symm⟩
  | none =>
    obtain ⟨d, hd, hpay, -, hconst, -⟩ := exists_definition hc hx
    simp only [Builder.leafPayload, hslot, ite_eq_iff, Except.bind_eq_ok, liftFault_eq_ok, hd,
      Except.pure_eq_ok, Except.ok.injEq, exists_eq_left', hconst] at h
    rcases h with ⟨hu, t, ht, bits, hbits, rfl⟩ | ⟨hnot, r, hr, rfl⟩
    · exact .inr (.inl ⟨hu, t, bits, ht, hbits, by rw [hpay]⟩)
    · obtain ⟨rfl, hstands⟩ := valueReg_eq_ok hc hx hslot hnot hr
      obtain ⟨hv, ha⟩ := hstands
      exact .inr (.inr ⟨hv, fun j hj => ha j (hj ▸ hx), rfl⟩)

/-- A value that is fetched exists. -/
theorem Fetched.exists_value (hcon : src.func.Coherent) (hc : Context.Ready src.func c)
    (h : Fetched src b v) : ∃ x, src.func.values[v]? = some x := by
  obtain ⟨i, op, hi, hop, hv⟩ : ∃ i op, src.func.blockOf i = some b ∧ src.func.opOf i = some op ∧
      v ∈ op.args := by
    cases h with
    | incoming hi hop hv => exact ⟨_, _, hi, hop, List.mem_map_of_mem (f := Prod.fst) hv⟩
    | operand hi hop hv => exact ⟨_, _, hi, hop, hv⟩
  have hin : i ∈ src.func.inserted := Func.mem_inserted.2 ⟨b, hcon.mem_instrsOf.2 hi⟩
  exact ⟨_, Array.getElem?_eq_getElem (Func.operandsExist_of_users hc.users i hin op hop v hv)⟩

/-- What the builder remembers of an instruction in a block is described. -/
theorem Finished.converted (hcon : src.func.Coherent) {g : Graph Opcode}
    {t : Builder Opcode} (h : Finished src g t) (hi : src.func.blockOf i = some b) :
    ∃ op result, src.func.opOf i = some op ∧ t.memo[i]? = some (.converted result) ∧
      Converted src t b i op result := by
  have hmem : i ∈ src.func.instrsOf b := hcon.mem_instrsOf.2 hi
  obtain ⟨nss, hdrawn⟩ := h.drawn b (Func.lt_size_of_mem_instrsOf hmem)
  obtain ⟨ns, -, result, hm, -⟩ := exists_mem_of_forall₂ hdrawn.chains hmem
  obtain ⟨d, op, hd, hop, hconv⟩ := h.between.sound.converted hm
  obtain rfl := Option.some.inj (hd.symm.trans hi)
  exact ⟨op, result, hop, hm, hconv⟩

/-! ### The registers that a graph asks for -/

/-- Whether an operation of the machine writes a register. -/
def Opcode.writesReg (m : Opcode) : Bool :=
  m.specs.any fun spec => spec.role.writes && spec.kinds.contains .reg

/-- What puts a value into its register. -/
inductive Origin (src : Source) (s : Builder Opcode) (v : ValueId) : Prop
  /-- An argument is there from the start. -/
  | argument {k : Nat} {t : TypeId} (hv : src.func.values[v]? = some (.arg k t))
  /-- The node of the instruction that defines the value writes a register. -/
  | written {j : InstrId} {op : Operation} {d : BlockId} {result : Conversion.Result} {n : NodeId}
      {m : Opcode} {args : List NodeRef} (hv : src.func.values[v]? = some (.result j))
      (hj : src.func.blockOf j = some d) (hop : src.func.opOf j = some op)
      (hcarried : op.isCarried = true) (hmemo : s.memo[j]? = some (.converted result))
      (hresult : result.value = some n) (hn : s.graph.Has n d (.inst m) args)
      (hm : m.writesReg = true)
  /-- Nothing does: the node of a comparison writes no register. -/
  | flags {j : InstrId} {p : Predicate} {t : TypeId} {x y : ValueId} {d : BlockId}
      {result : Conversion.Result} {n : NodeId} {m : Opcode} {args : List NodeRef}
      (hv : src.func.values[v]? = some (.result j)) (hj : src.func.blockOf j = some d)
      (hop : src.func.opOf j = some (.icmp p t x y))
      (hmemo : s.memo[j]? = some (.converted result)) (hresult : result.value = some n)
      (hn : s.graph.Has n d (.inst m) args) (hm : m.writesReg = false)

theorem writesReg_of_binaryOpcodes {op : BinaryOp} {rr ri : Opcode}
    (h : binaryOpcodes op = some (rr, ri)) (isConst : Bool) :
    (if isConst then ri else rr).writesReg = true := by
  cases op <;> cases h <;> cases isConst <;> rfl

/-- The node of an instruction with a result other than an address. -/
theorem Finished.origin (hcon : src.func.Coherent) {g : Graph Opcode} {t : Builder Opcode}
    (h : Finished src g t) (hv : src.func.InRegister v)
    (ha : ∀ j, src.func.values[v]? = some (.result j) → src.func.isAlloca j = false) :
    Origin src t v := by
  rcases hv.cases hcon.toNaming with ⟨k, type, hx⟩ | ⟨j, ins, hin, hins, hres, rfl⟩
  · exact .argument hx
  have hx := hcon.result_value hins
  obtain ⟨d, hd⟩ := Func.mem_inserted.1 hin
  have hj := hcon.mem_instrsOf.1 hd
  obtain ⟨op, result, hop, hm, hconv⟩ := h.converted hcon hj
  have hinsop : ins.op = some op := by simpa [Func.opOf, hins] using hop
  cases hconv with
  | alloca => simpa [Func.isAlloca, hop] using ha j hx
  | phi _ hn => exact .written hx hj hop rfl hm rfl hn rfl
  | load _ _ _ _ hn => exact .written hx hj hop rfl hm rfl hn rfl
  | binary hops _ _ _ hn =>
    exact .written hx hj hop rfl hm rfl hn (writesReg_of_binaryOpcodes hops _)
  | @icmp _ _ _ _ _ _ _ _ isConst _ _ _ hn =>
    exact .flags hx hj hop hm rfl hn (by cases isConst <;> rfl)
  | store | br | condBr | ret =>
    simp [Codegen.Instr.hasResult, Codegen.Instr.type, hinsop, Operation.type] at hres

/-- The registers that the graph of a function asks for are those of values that their blocks fetch.
Each belongs to an argument, to a phi, a load, a sum or a difference, whose node writes a register,
or to a comparison, whose node writes none. A block fetches a comparison only if it comes in at a
phi or if an instruction other than a branch reads it in another block. -/
theorem vreg_of_build (hf : src.func.Drafted) {g : Graph Opcode}
    (h : Builder.build converter src s = .ok g s') {n : NodeId} {node : Node Opcode} {r : Reg}
    (hn : g.nodes[n]? = some node) (hr : node.payload = some (.vreg r)) :
    ∃ v, r = src.func.regOf v ∧ src.func.InRegister v ∧ Fetched src node.block v ∧
      Origin src { s' with graph := g } v := by
  have hcon := hf.coherent
  obtain ⟨hready, hall⟩ := backed_of_build hcon h
  obtain ⟨v, hv, hleaf⟩ := hall hn hr
  obtain ⟨x, hx⟩ := hv.exists_value hcon hready
  rcases leafPayload_cases hready hx hleaf with ⟨_, -, -, -, hp⟩ | ⟨-, _, _, -, -, hp⟩ |
    ⟨hreg, ha, hp⟩
  · cases hp
  · cases hp
  · cases hp
    have ha : ∀ j, src.func.values[v]? = some (.result j) → src.func.isAlloca j = false :=
      fun j hj => ha j (Option.some.inj (hx.symm.trans hj))
    exact ⟨v, rfl, hreg, hv, (finished_with_graph hcon h).origin hcon hreg ha⟩

/-- The function that compares its argument with itself, lets a phi of the next block take the
result in, and returns its argument. -/
def comparing : Source where
  types := Func.sampleTypes
  func := (Func.sampleStart.assemble [] [[.icmp .slt 3 1 1, .br 1],
    [.phi 3 [(2, 0)], .ret (some 1)]]).getD Func.sampleStart

theorem built_comparing : comparing.func.Built := by
  simpa only [comparing] using Func.built_assembled _ _

theorem vreg_of_build_comparing :
    comparing.func.check comparing.types = .ok () ∧ comparing.func.OperandsYield ∧
      comparing.func.values[2]? = some (.result 0) ∧
      comparing.func.opOf 0 = some (.icmp .slt 3 1 1) ∧
      ∃ g s' node, Builder.build converter comparing {} = .ok g s' ∧ g.nodes[9]? = some node ∧
        node.payload = some (.vreg (comparing.func.regOf 2)) ∧ Fetched comparing node.block 2 ∧
        Origin comparing { s' with graph := g } 2 := by
  have hgives : EStateM.gives (fun g => g.nodes[9]?.bind (·.payload) =
      some (.vreg (comparing.func.regOf 2))) (Builder.build converter comparing {}) = true := by
    decide +kernel
  obtain ⟨g, s', hbuild, hnode⟩ := EStateM.eq_ok_of_gives hgives
  obtain ⟨node, hn, hr⟩ := Option.bind_eq_some_iff.1 (of_decide_eq_true hnode)
  obtain ⟨v, hv, hreg, hfetched, horigin⟩ :=
    vreg_of_build built_comparing.drafted hbuild hn hr
  have hres : comparing.func.InRegister 2 := by
    change 2 ∈ comparing.func.holders comparing.func.params comparing.func.inserted
    decide +kernel
  have hready := (backed_of_build built_comparing.drafted.coherent hbuild).1
  obtain rfl := hready.regOf_inj hres hreg hv
  exact ⟨by decide +kernel, by decide +kernel, by decide +kernel, by decide +kernel, g, s', node,
    hbuild, hn, hr, hfetched, horigin⟩

end X86

end Codegen
