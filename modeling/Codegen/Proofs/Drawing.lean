import Codegen.Proofs.Arrangement

/-!
# The graph of a function

A builder goes through the instructions of a block from the last to the first and puts what they
chain in front of the chain so far. Since no two instructions chain the same node, the chain of a
block passes through the nodes of its instructions in program order. The blocks that are built later
leave it as it is.

## Main definitions

* `Builder.Passes`: what stays when a block is built.
* `X86.Chains`, `X86.Logged`: the nodes that an instruction has put on the chain, and what is
  recorded of them.
* `X86.Tailed`: a builder that has gone through the last instructions of a block.
* `X86.Drawn`: a block whose graph is complete.
* `X86.Finished`: a graph all of whose blocks are complete.

## Main results

* `X86.Tailed.buildInstr`, `X86.buildBlock_eq_ok`: one more instruction, and one more block.
* `X86.finished_with_graph`, `X86.drawn_of_build`: a graph that was built is complete in every
  block.
* `X86.Drawn.chainOrder_eq_ok`: the chain of a block in program order.
-/

namespace Codegen

namespace Builder

variable {ω : Type} {s s' t : Builder ω} {b c : BlockId} {n : NodeId} {src : Source}
  {conv : Converter ω}

/-- Building block `b` changes no node of another block. -/
structure Passes (b : BlockId) (s s' : Builder ω) : Prop extends Grows s s' where
  same : ∀ {n : NodeId} {node : Node ω}, s.graph.nodes[n]? = some node → node.block ≠ b →
    s'.graph.nodes[n]? = some node
  size : s'.graph.blocks.size = s.graph.blocks.size
  others : ∀ {c : BlockId}, c ≠ b → s'.graph.blocks[c]? = s.graph.blocks[c]?

theorem Passes.trans (h : Passes b s t) (h' : Passes b t s') : Passes b s s' :=
  ⟨h.toGrows.trans h'.toGrows, fun hn hb => h'.same (h.same hn hb) hb, h'.size.trans h.size,
    fun hc => (h'.others hc).trans (h.others hc)⟩

theorem Keeps.passes (h : Keeps (·.block ≠ b) s s') : Passes b s s' :=
  ⟨h.toGrows, h.same, by rw [h.blocks], fun _ => by rw [h.blocks]⟩

/-- A builder that has begun a block: the root is made. -/
def opened (s : Builder ω) (b : BlockId) : Builder ω :=
  let t := { s with current := b }.added (Node.root b)
  { t with graph := t.graph.updateBlock b ({ · with root := some s.graph.nodes.size }) }

/-- A builder that ends a block: the root is followed by the chain. -/
def closed (s : Builder ω) (b : BlockId) (root : NodeId) (tail : Tail) : Builder ω :=
  let s := s.chained root tail.head
  { s with graph := s.graph.updateBlock b ({ · with effects := tail.effects }) }

theorem passes_updateBlock (s : Builder ω) (b : BlockId) (change : Graph.Block → Graph.Block) :
    Passes b s { s with graph := s.graph.updateBlock b change } :=
  ⟨⟨rfl, ⟨rfl, rfl, fun h => ⟨_, h⟩⟩, id⟩, fun h _ => h, by simp [Graph.updateBlock],
    fun hc => by simp [Graph.updateBlock, Array.getElem?_modify, hc.symm]⟩

theorem passes_opened (s : Builder ω) (b : BlockId) : Passes b s (s.opened b) := by
  have hcurrent : Passes b s { s with current := b } :=
    ⟨⟨rfl, .refl _, id⟩, fun h _ => h, rfl, fun _ => rfl⟩
  have hadded : Passes b { s with current := b } ({ s with current := b }.added (Node.root b)) :=
    (keeps_added _ _).passes
  exact (hcurrent.trans hadded).trans (passes_updateBlock _ b _)

theorem passes_closed {node : Node ω} (hn : s.graph.nodes[n]? = some node) (hb : node.block = b)
    (tail : Tail) : Passes b s (s.closed b n tail) := by
  have hchained : Passes b s (s.chained n tail.head) :=
    (keeps_chained hn (not_not_intro hb)).passes
  exact hchained.trans (passes_updateBlock _ b _)

/-- A graph stays arranged when a block that had no root gets one. -/
theorem arranged_opened (h : s.graph.Arranged) {blk : Graph.Block}
    (hb : s.graph.blocks[b]? = some blk) (hroot : blk.root = none) :
    (s.opened b).graph.Arranged := by
  have hpass := passes_opened s b
  have hlt : b < s.graph.blocks.size := (Array.getElem?_eq_some_iff.1 hb).1
  refine h.push hpass.graph rfl hpass.size (fun {n node blk'} hn hkind hblk => ?_) hlt
    (fun blk' _ hblk => ?_) (fun r hr => by cases hr)
  · by_cases hne : node.block = b
    · -- The block had no root, so that it had no node that is one.
      cases hroot.symm.trans (h.root hn hkind (hne ▸ hb))
    · exact h.root hn hkind (hpass.others hne ▸ hblk)
  · have hopened : (s.opened b).graph.blocks[b]? =
        some { blk with root := some s.graph.nodes.size } := by
      simp [opened, added, Graph.updateBlock, Array.getElem?_modify, hb]
    cases hopened.symm.trans hblk
    rfl

theorem arranged_closed (h : s.graph.Arranged) {node : Node ω}
    (hn : s.graph.nodes[n]? = some node) (hb : node.block = b) (tail : Tail) :
    (s.closed b n tail).graph.Arranged := by
  refine h.congr (passes_closed hn hb tail).graph ?_ (Array.ext_getElem? fun c => ?_)
  · simp [closed, chained, Graph.updateNode, Graph.updateBlock]
  · simp only [closed, chained, Graph.updateNode, Graph.updateBlock, Array.getElem?_map,
      Array.getElem?_modify]
    split <;> simp [Function.comp_def]

theorem chainOf_eq_ok {i : InstrId} {result : Conversion.Result} {chain : List NodeRef}
    (hm : s.memo[i]? = some (.converted result)) (h : chainOf i s = .ok chain s') :
    chain = result.chain ∧ s' = s := by
  simp only [chainOf, EStateM.bind_eq_ok, memoOf_eq_ok] at h
  obtain ⟨m, _, ⟨hm', rfl⟩, h⟩ := h
  obtain rfl := Option.some.inj (hm.symm.trans hm')
  obtain ⟨rfl, rfl⟩ := EStateM.pure_eq_ok.1 h
  exact ⟨rfl, rfl⟩

/-- Going through an instruction means converting it, putting what it chains in front, and recording
it if that is anything. -/
theorem buildInstr_eq_ok {tail tail' : Tail} {i : InstrId}
    (h : buildInstr conv src tail i s = .ok tail' s') :
    ∃ r s₁ chain s₂ ins, convert conv src (src.func.instrs.size + 1) i s = .ok r s₁ ∧
      chainOf i s₁ = .ok chain s₂ ∧ src.func.instrs[i]? = some ins ∧
      ins.hasEffects = !chain.isEmpty ∧
      chain.reverse.foldlM (prepend i) tail.head s₂ = .ok tail'.head s' ∧
      tail'.effects = if chain.isEmpty then tail.effects
        else ⟨i, chain.map NodeRef.number⟩ :: tail.effects := by
  simp only [buildInstr, EStateM.bind_eq_ok, liftStop_eq_ok, liftFault_eq_ok,
    Func.instr_eq_ok] at h
  obtain ⟨r, s₁, hconvert, chain, s₂, hchain, ins, _, ⟨hins, rfl⟩, h⟩ := h
  split at h
  · exact absurd h EStateM.throw_ne_ok
  next heffects =>
  obtain ⟨head, s₃, hfold, h⟩ := EStateM.bind_eq_ok.1 h
  refine ⟨r, s₁, chain, s₂, ins, hconvert, hchain, hins, not_not.1 heffects, ?_⟩
  split at h
  all_goals
    next hempty =>
    obtain ⟨rfl, rfl⟩ := EStateM.pure_eq_ok.1 h
    exact ⟨hfold, by simp [hempty]⟩

/-- Building a block means making its root, going through its instructions from the last to the
first, and putting the chain behind the root. -/
theorem buildBlock_eq_ok {blk : Block} :
    buildBlock conv src b blk s = .ok () s' ↔
      ∃ tail t, blk.instrs.reverse.foldlM (buildInstr conv src) {} (s.opened b) = .ok tail t ∧
        s' = t.closed b s.graph.nodes.size tail := by
  simp only [buildBlock, EStateM.bind_eq_ok, EStateM.modify_eq_ok, push_eq_ok]
  constructor
  · rintro ⟨_, _, rfl, root, _, ⟨rfl, rfl⟩, _, _, rfl, tail, t, hfold, rfl⟩
    exact ⟨tail, t, hfold, rfl⟩
  · rintro ⟨tail, t, hfold, rfl⟩
    exact ⟨(), _, rfl, _, _, ⟨rfl, rfl⟩, (), _, rfl, tail, t, hfold, rfl⟩

theorem emptyGraph_eq_ok {f : Func} {c : Context} {g : Graph ω} (h : emptyGraph f c = .ok g) :
    g.regs = c.regs ∧ g.labels = c.labels ∧ g.nodes = #[] ∧ g.blocks.size = f.blocks.size ∧
      ∀ (b : BlockId) (blk : Graph.Block), g.blocks[b]? = some blk → blk.root = none := by
  unfold emptyGraph at h
  split at h
  · exact absurd h Except.throw_ne_ok
  · obtain rfl := Except.pure_eq_ok.1 h
    refine ⟨rfl, rfl, rfl, by simp [Func.layout, Func.blockIds], fun b blk hb => ?_⟩
    rw [List.getElem?_toArray, List.getElem?_map] at hb
    obtain ⟨_, -, rfl⟩ := Option.map_eq_some_iff.1 hb
    rfl

/-- A builder that is set up for a function has its assignments, its blocks and no node, and no
conversion has begun. -/
theorem start_eq_ok (h : start src s = .ok () s') :
    (Context.init src.func).run s.context = .ok () s'.context ∧
      emptyGraph src.func s'.context = .ok s'.graph ∧
      s'.memo = Array.replicate src.func.instrs.size .unseen := by
  unfold start at h
  split at h
  · cases h
  · next hinit =>
    split at h
    · cases h
    · next hgraph =>
      cases h
      exact ⟨hinit, hgraph, rfl⟩

/-- Building a graph means setting the builder up and building all blocks. -/
theorem build_eq_ok {g : Graph ω} :
    build conv src s = .ok g s' ↔ ∃ s₁ t, start src s = .ok () s₁ ∧
      buildBlocks conv src src.func.layout s₁ = .ok () t ∧ t.graph = g ∧
      { t with graph := {} } = s' := by
  constructor
  · intro h
    unfold build at h
    split at h
    · next g' t hbuild =>
      cases h
      simp only [buildGraph, EStateM.run, EStateM.bind_eq_ok, EStateM.get_eq_ok,
        EStateM.pure_eq_ok] at hbuild
      obtain ⟨_, s₁, hstart, _, _, hblocks, _, _, ⟨rfl, rfl⟩, rfl, rfl⟩ := hbuild
      exact ⟨s₁, _, hstart, hblocks, rfl, rfl⟩
    · cases h
  · rintro ⟨s₁, t, hstart, hblocks, rfl, rfl⟩
    have hbuild : (buildGraph conv src).run s = .ok t.graph t := by
      simp only [buildGraph, EStateM.run, EStateM.bind_eq_ok, EStateM.get_eq_ok,
        EStateM.pure_eq_ok]
      exact ⟨(), s₁, hstart, (), t, hblocks, t, t, ⟨rfl, rfl⟩, rfl, rfl⟩
    rw [build, hbuild]

end Builder

namespace X86

variable {src : Source} {s s' t : Builder Opcode} {b c : BlockId} {i : InstrId} {is : List InstrId}
  {ns : List NodeId} {nss : List (List NodeId)} {result : Conversion.Result} {es : List Effect}

/-! ### Blocks -/

/-- The nodes that an instruction has put on the chain. -/
def Chains (s : Builder Opcode) (i : InstrId) (ns : List NodeId) : Prop :=
  ∃ result, s.memo[i]? = some (.converted result) ∧ result.chain = ns.map some

theorem Chains.mono (h : Chains s i ns) (hg : s.Grows s') : Chains s' i ns := by
  obtain ⟨result, hm, hns⟩ := h
  exact ⟨result, hg.memo hm, hns⟩

/-- Different instructions chain different nodes. -/
theorem Sound.not_mem_flatten (hs : Sound src s) (hi : s.memo[i]? = some (.converted result))
    (h : List.Forall₂ (Chains s) is nss) (hnot : i ∉ is) :
    ∀ n, some n ∈ result.chain → n ∉ nss.flatten := by
  intro n hn hmem
  obtain ⟨ns, hns, hmem⟩ := List.mem_flatten.1 hmem
  obtain ⟨j, hj, result', hm, hchain⟩ := exists_mem_of_forall₂ h.flip hns
  refine hs.disjoint hi hm (fun hij => hnot (hij ▸ hj)) (some n) hn ?_
  rw [hchain]
  exact List.mem_map_of_mem hmem

theorem Sound.nodup_flatten (hs : Sound src s) (h : List.Forall₂ (Chains s) is nss)
    (hnodup : is.Nodup) : nss.flatten.Nodup := by
  induction h with
  | nil => exact List.nodup_nil
  | @cons i ns is nss hi h ih =>
    obtain ⟨result, hm, hchain⟩ := hi
    obtain ⟨hnot, hnodup⟩ := List.nodup_cons.1 hnodup
    obtain ⟨b, op, -, -, hconv⟩ := hs.converted hm
    have hns : ns.Nodup := by
      have := hconv.nodup_chain
      rw [hchain] at this
      exact this.of_map some
    refine List.nodup_append.2 ⟨hns, ih hnodup, fun n hn m hm' hnm => ?_⟩
    refine hs.not_mem_flatten hm h hnot n ?_ (hnm ▸ hm')
    rw [hchain]
    exact List.mem_map_of_mem hn

/-- What is recorded of instructions `is` that have put `nss` on the chain. -/
structure Logged (src : Source) (s : Builder Opcode) (is : List InstrId) (nss : List (List NodeId))
    (es : List Effect) : Prop where
  recorded : Graph.Recorded src.func is es
  nodes : es.flatMap (·.nodes) = nss.flatten
  chains : ∀ e ∈ es, Chains s e.instr e.nodes

theorem Logged.mono (h : Logged src s is nss es) (hg : s.Grows s') : Logged src s' is nss es :=
  ⟨h.recorded, h.nodes, fun e he => (h.chains e he).mono hg⟩

/-- An instruction is recorded if it puts something on the chain. -/
theorem Logged.cons (h : Logged src s is nss es) {ins : Codegen.Instr}
    (hins : src.func.instrs[i]? = some ins) (heffects : ins.hasEffects = !ns.isEmpty)
    (hns : Chains s i ns) :
    Logged src s (i :: is) (ns :: nss) (if ns.isEmpty then es else ⟨i, ns⟩ :: es) := by
  cases ns with
  | nil => exact ⟨.skip hins heffects h.recorded, h.nodes, h.chains⟩
  | cons n ns =>
    refine ⟨.chain hins heffects (List.cons_ne_nil n ns) h.recorded, ?_,
      List.forall_mem_cons.2 ⟨hns, h.chains⟩⟩
    change (n :: ns) ++ es.flatMap (·.nodes) = _
    rw [h.nodes, List.flatten_cons]

/-- A builder that has gone through the last instructions of a block. -/
structure Tailed (src : Source) (b : BlockId) (is : List InstrId) (nss : List (List NodeId))
    (tail : Builder.Tail) (s : Builder Opcode) : Prop where
  sound : Sound src s
  current : s.current = b
  chains : List.Forall₂ (Chains s) is nss
  linked : s.graph.Linked b tail.head nss.flatten
  logged : Logged src s is nss tail.effects
  arranged : src.func.OperandsYield → s.graph.Arranged

/-- Going through one more instruction puts what it chains in front. -/
theorem Tailed.buildInstr (hcon : src.func.Coherent) {tail tail' : Builder.Tail}
    (hT : Tailed src b is nss tail s) (hlt : b < s.graph.blocks.size)
    (hi : src.func.blockOf i = some b) (hnot : i ∉ is)
    (h : Builder.buildInstr converter src tail i s = .ok tail' s') :
    Builder.Keeps (·.block ≠ b) s s' ∧ ∃ ns, Tailed src b (i :: is) (ns :: nss) tail' s' := by
  obtain ⟨hs, rfl, hchains, hlinked, hlogged, harr⟩ := hT
  obtain ⟨r, s₁, chain, s₂, ins, hconvert, hchain, hins, heffects, hfold, htail⟩ :=
    Builder.buildInstr_eq_ok h
  obtain ⟨hreach, result, hm, -⟩ := visits_convert hcon _ hs hi hconvert
  obtain ⟨rfl, rfl⟩ := Builder.chainOf_eq_ok hm hchain
  have hcurrent := hreach.keeps.current
  have hchains := hchains.imp fun _ _ h => h.mono hreach.keeps.toGrows
  have hlinked : s₂.graph.Linked s₂.current tail.head nss.flatten :=
    hcurrent ▸ hlinked.congr fun n _ node hn _ => hreach.keeps.same hn trivial
  obtain ⟨b, op, -, -, hconv⟩ := hreach.sound.converted hm
  obtain ⟨ns, hns, hlinked', hkeeps, hmemo⟩ := Builder.foldlM_prepend_eq_ok hfold hlinked
    (hreach.sound.not_mem_flatten hm hchains hnot) hconv.nodup_chain
  have hnumbers : result.chain.map NodeRef.number = ns := by
    simp [hns, Function.comp_def, NodeRef.number]
  have hempty : result.chain.isEmpty = ns.isEmpty := by rw [hns, List.isEmpty_map]
  rw [hempty] at heffects
  rw [hempty, hnumbers] at htail
  rw [hcurrent] at hlinked' hkeeps
  have hgrows := hreach.keeps.toGrows.trans hkeeps.toGrows
  have hns : Chains s' i ns := ⟨result, hkeeps.memo hm, hns⟩
  refine ⟨(hreach.keeps.mono fun _ _ => trivial).trans hkeeps, ns, ?_, ?_, .cons hns ?_, hlinked',
    htail ▸ (hlogged.mono hgrows).cons hins heffects hns, fun hyield => ?_⟩
  · exact hreach.sound.grow hkeeps.toGrows fun h => hmemo ▸ h
  · exact hkeeps.current.trans hcurrent
  · exact hchains.imp fun _ _ h => h.mono hkeeps.toGrows
  · refine Builder.arranged_foldlM_prepend ?_ hfold
    exact arranges_convert hcon hyield _ ⟨hs, harr hyield, hlt, by simp⟩ hi hconvert

/-- Going through the instructions of a block from the last to the first. -/
theorem exists_tailed (hcon : src.func.Coherent) (hs : Tailed src b [] [] {} s)
    (hlt : b < s.graph.blocks.size) (his : ∀ i ∈ is, src.func.blockOf i = some b)
    (hnodup : is.Nodup) {tail : Builder.Tail}
    (h : is.reverse.foldlM (Builder.buildInstr converter src) {} s = .ok tail s') :
    Builder.Keeps (·.block ≠ b) s s' ∧ ∃ nss, Tailed src b is nss tail s' := by
  induction is generalizing tail s' with
  | nil =>
    obtain ⟨rfl, rfl⟩ := EStateM.pure_eq_ok.1 h
    exact ⟨.refl s, [], hs⟩
  | cons i is ih =>
    obtain ⟨hi, his⟩ := List.forall_mem_cons.1 his
    obtain ⟨hnot, hnodup⟩ := List.nodup_cons.1 hnodup
    rw [List.reverse_cons, List.foldlM_append, EStateM.bind_eq_ok] at h
    obtain ⟨tail₁, t, hrest, hlast⟩ := h
    simp only [List.foldlM_cons, List.foldlM_nil, bind_pure] at hlast
    obtain ⟨hkeeps, nss, hT⟩ := ih his hnodup hrest
    obtain ⟨hkeeps', ns, hT'⟩ := hT.buildInstr hcon (hkeeps.blocks ▸ hlt) hi hnot hlast
    exact ⟨hkeeps.trans hkeeps', ns :: nss, hT'⟩

/-- A block whose chain passes from its root through the nodes that its instructions chain. -/
structure Drawn (src : Source) (s : Builder Opcode) (b : BlockId) (nss : List (List NodeId)) :
    Prop where
  chains : List.Forall₂ (Chains s) (src.func.instrsOf b) nss
  threaded : ∃ blk, s.graph.blocks[b]? = some blk ∧ s.graph.Threaded src.func b blk ∧
    Logged src s (src.func.instrsOf b) nss blk.effects

/-- Building another block leaves a block as it is. -/
theorem Drawn.mono (h : Drawn src s b nss) (hp : Builder.Passes c s s') (hne : b ≠ c) :
    Drawn src s' b nss := by
  obtain ⟨blk, hblk, hthreaded, hlogged⟩ := h.threaded
  refine ⟨h.chains.imp fun _ _ h => h.mono hp.toGrows, blk, ?_, ?_, hlogged.mono hp.toGrows⟩
  · rw [hp.others hne, hblk]
  · exact hthreaded.congr fun n node hn hb => hp.same hn (hb ▸ hne)

/-- The chain of a block passes through the nodes of its instructions in program order. -/
theorem Drawn.chainOrder_eq_ok (h : Drawn src s b nss) :
    s.graph.chainOrder b = .ok nss.flatten := by
  obtain ⟨blk, hblk, hthreaded, hlogged⟩ := h.threaded
  rw [hthreaded.chainOrder_eq_ok hblk, hlogged.nodes]

/-- A builder that is not inside a block. -/
structure Between (src : Source) (s : Builder Opcode) : Prop where
  sound : Sound src s
  size : s.graph.blocks.size = src.func.blocks.size
  arranged : src.func.OperandsYield → s.graph.Arranged

/-- A block of a graph that was not begun. -/
def Blank (s : Builder Opcode) (b : BlockId) : Prop :=
  ∃ blk, s.graph.blocks[b]? = some blk ∧ blk.root = none

/-- Building another block does not begin a block. -/
theorem Blank.passes (h : Blank s c) (hpass : Builder.Passes b s s') (hne : c ≠ b) :
    Blank s' c := by
  obtain ⟨blk, hblk, hroot⟩ := h
  exact ⟨blk, (hpass.others hne).trans hblk, hroot⟩

/-- A builder that begins a block. -/
theorem Between.opened (hs : Between src s) (hb : Blank s b) :
    Tailed src b [] [] {} (s.opened b) := by
  obtain ⟨blk, hblk, hroot⟩ := hb
  exact ⟨hs.sound.grow (Builder.passes_opened s b).toGrows id, rfl, .nil, rfl,
    ⟨.nil, rfl, by simp⟩, fun hyield => Builder.arranged_opened (hs.arranged hyield) hblk hroot⟩

/-- The nodes on the chain of a block are operations. -/
theorem Tailed.has_of_mem {tail : Builder.Tail} {n : NodeId} (hT : Tailed src b is nss tail s)
    (hn : n ∈ nss.flatten) : ∃ c m args, s.graph.Has n c (.inst m) args := by
  obtain ⟨ns, hns, hn⟩ := List.mem_flatten.1 hn
  obtain ⟨i, -, result, hm, hchain⟩ := exists_mem_of_forall₂ hT.chains.flip hns
  obtain ⟨c, op, -, -, hconv⟩ := hT.sound.converted hm
  exact ⟨c, hconv.has_of_mem_chain (hchain ▸ List.mem_map_of_mem hn)⟩

/-- When the root of a block is followed by the chain of all instructions, the block is complete. -/
theorem Tailed.closed (hcon : src.func.Coherent) {tail : Builder.Tail}
    (hT : Tailed src b (src.func.instrsOf b) nss tail s) {blk : Graph.Block} {n : NodeId}
    {chain : NodeRef} (hblk : s.graph.blocks[b]? = some blk) (hroot : blk.root = some n)
    (hn : s.graph.nodes[n]? = some { (Node.root b : Node Opcode) with chain }) :
    Drawn src (s.closed b n tail) b nss := by
  have hpass : Builder.Passes b s (s.closed b n tail) := Builder.passes_closed hn rfl tail
  have hlogged := hT.logged.mono hpass.toGrows
  have hnot : n ∉ nss.flatten := by
    intro hmem
    obtain ⟨c, m, args, ⟨_, hhas⟩, -⟩ := hT.has_of_mem hmem
    -- A root has no payload.
    cases hn.symm.trans hhas
  have hnode (m : NodeId) : (s.closed b n tail).graph.nodes[m]? =
      (s.chained n tail.head).graph.nodes[m]? := rfl
  have hlinked : (s.closed b n tail).graph.Linked b tail.head nss.flatten := by
    refine hT.linked.congr fun m hm node hm' _ => ?_
    rw [hnode, Builder.nodes_chained, if_neg, hm']
    rintro rfl
    exact hnot hm
  refine ⟨hT.chains.imp fun _ _ h => h.mono hpass.toGrows, { blk with effects := tail.effects },
    ?_, ⟨hlogged.recorded, ?_, ?_, fun m hm node hm' => ?_⟩, hlogged⟩
  · simp [Builder.closed, Builder.chained, Graph.updateBlock, Graph.updateNode,
      Array.getElem?_modify, hblk]
  · refine ⟨n, { Node.root b with chain := tail.head }, hroot, ?_, rfl, rfl,
      hlogged.nodes ▸ hlinked⟩
    rw [hnode, Builder.nodes_chained, if_pos rfl, hn]
    rfl
  · exact hlogged.nodes ▸ hT.sound.nodup_flatten hT.chains (hcon.nodup_instrsOf b)
  · obtain ⟨c, m, args, hhas⟩ := hT.has_of_mem (hlogged.nodes ▸ hm)
    obtain ⟨⟨_, hhas⟩, -⟩ := hhas.mono hpass.graph
    cases hhas.symm.trans hm'
    rfl

theorem buildBlock_eq_ok (hcon : src.func.Coherent) (hs : Between src s) {blk : Block}
    (hb : src.func.blocks[b]? = some blk) (hblank : Blank s b)
    (h : Builder.buildBlock converter src b blk s = .ok () s') :
    Between src s' ∧ Builder.Passes b s s' ∧ ∃ nss, Drawn src s' b nss := by
  obtain ⟨tail, t, hfold, rfl⟩ := Builder.buildBlock_eq_ok.1 h
  rw [← Func.instrs_eq_instrsOf hb] at hfold
  have hopened := Builder.passes_opened s b
  have hlt : b < s.graph.blocks.size := hs.size ▸ (Array.getElem?_eq_some_iff.1 hb).1
  obtain ⟨hkeeps, nss, hT⟩ := exists_tailed hcon (hs.opened hblank) (hopened.size ▸ hlt)
    (fun i hi => hcon.mem_instrsOf.1 hi) (hcon.nodup_instrsOf b) hfold
  obtain ⟨chain, hn⟩ : ∃ chain, t.graph.nodes[s.graph.nodes.size]? =
      some { (Node.root b : Node Opcode) with chain } :=
    hkeeps.graph.node (by simp [Builder.opened, Builder.added, Graph.updateBlock])
  have hblk : t.graph.blocks[b]? =
      some { s.graph.blocks[b] with root := some s.graph.nodes.size } := by
    simp [hkeeps.blocks, Builder.opened, Builder.added, Graph.updateBlock, Array.getElem_modify,
      hlt]
  have hclosed : Builder.Passes b t (t.closed b s.graph.nodes.size tail) :=
    Builder.passes_closed hn rfl tail
  have hpass := (hopened.trans hkeeps.passes).trans hclosed
  refine ⟨⟨hT.sound.grow hclosed.toGrows id, hpass.size.trans hs.size, fun hyield => ?_⟩, hpass,
    nss, hT.closed hcon hblk rfl hn⟩
  exact Builder.arranged_closed (hT.arranged hyield) hn rfl tail

/-! ### Functions -/

/-- Building blocks one after the other completes each of them and leaves all others as they are. -/
theorem buildBlocks_eq_ok (hcon : src.func.Coherent) {blks : List (BlockId × Block)}
    (hblks : ∀ b blk, (b, blk) ∈ blks → src.func.blocks[b]? = some blk)
    (hnodup : (blks.map Prod.fst).Nodup) (hs : Between src s)
    (hblank : ∀ b ∈ blks.map Prod.fst, Blank s b)
    (h : Builder.buildBlocks converter src blks s = .ok () s') :
    s.Grows s' ∧ Between src s' ∧ (∀ b ∈ blks.map Prod.fst, ∃ nss, Drawn src s' b nss) ∧
      ∀ b ∉ blks.map Prod.fst, ∀ nss, Drawn src s b nss → Drawn src s' b nss := by
  induction blks generalizing s with
  | nil =>
    obtain ⟨-, rfl⟩ := EStateM.pure_eq_ok.1 h
    exact ⟨.refl s, hs, by simp, fun _ _ _ h => h⟩
  | cons blk blks ih =>
    obtain ⟨b, blk⟩ := blk
    obtain ⟨hnot, hnodup⟩ := List.nodup_cons.1 hnodup
    obtain ⟨hb, hblks⟩ := List.forall_mem_cons.1 fun p : BlockId × Block => hblks p.1 p.2
    obtain ⟨hbegin, hblank⟩ := List.forall_mem_cons.1 hblank
    simp only [Builder.buildBlocks, EStateM.bind_eq_ok, atPlace_eq_ok] at h
    obtain ⟨_, t, hblock, hrest⟩ := h
    obtain ⟨hst, hpass, nss, hdrawn⟩ := buildBlock_eq_ok hcon hs hb hbegin hblock
    have hblank : ∀ c ∈ blks.map Prod.fst, Blank t c := fun c hc =>
      (hblank c hc).passes hpass fun he => hnot (he ▸ hc)
    obtain ⟨hgrows, hs', hnew, hold⟩ := ih (fun b blk => hblks (b, blk)) hnodup hst hblank hrest
    refine ⟨hpass.toGrows.trans hgrows, hs', ?_, fun c hc nss hc' => ?_⟩
    · exact List.forall_mem_cons.2 ⟨⟨nss, hold b hnot nss hdrawn⟩, hnew⟩
    · obtain ⟨hne, hc⟩ := not_or.1 (mt List.mem_cons.2 hc)
      exact hold c hc nss (hc'.mono hpass hne)

theorem startBuilder_eq_ok (hcon : src.func.Coherent) (h : Builder.start src s = .ok () s') :
    Between src s' ∧ s'.graph.regs = s'.context.regs ∧ s'.graph.labels = s'.context.labels ∧
      ∀ b < src.func.blocks.size, Blank s' b := by
  obtain ⟨hinit, hgraph, hmemo⟩ := Builder.start_eq_ok h
  obtain ⟨hregs, hlabels, hnodes, hsize, hroots⟩ := Builder.emptyGraph_eq_ok hgraph
  -- No conversion has ended yet, and there is no node.
  have hnone {i : InstrId} {result : Conversion.Result} :
      s'.memo[i]? ≠ some (.converted result) := by
    simp [hmemo, Array.getElem?_replicate]
  have hempty {n : NodeId} {node : Node Opcode} : s'.graph.nodes[n]? ≠ some node := by
    simp [hnodes]
  refine ⟨⟨⟨Context.ready_of_init hcon hinit, fun hm => absurd hm hnone,
    fun hm => absurd hm hnone⟩, hsize, fun _ => ⟨fun hn => absurd hn hempty,
    fun hn => absurd hn hempty, fun hn => absurd hn hempty⟩⟩, hregs, hlabels, fun b hb => ?_⟩
  have hblk : s'.graph.blocks[b]? = some _ := Array.getElem?_eq_getElem (hsize ▸ hb)
  exact ⟨_, hblk, hroots b _ hblk⟩

/-- A graph that was built, with the builder as it was at the end. -/
structure Finished (src : Source) (g : Graph Opcode) (t : Builder Opcode) : Prop where
  graph : t.graph = g
  between : Between src t
  regs : g.regs = t.context.regs
  labels : g.labels = t.context.labels
  drawn : ∀ b < src.func.blocks.size, ∃ nss, Drawn src t b nss

/-- A builder remembers how the graph that it built came about. -/
theorem finished_with_graph (hcon : src.func.Coherent) {g : Graph Opcode}
    (h : Builder.build converter src s = .ok g s') : Finished src g { s' with graph := g } := by
  obtain ⟨s₁, t, hstart, hblocks, rfl, rfl⟩ := Builder.build_eq_ok.1 h
  obtain ⟨hs₁, hregs, hlabels, hblank⟩ := startBuilder_eq_ok hcon hstart
  obtain ⟨hgrows, hs, hdrawn, -⟩ := buildBlocks_eq_ok hcon (fun _ _ => Func.mem_layout.1)
    src.func.nodup_map_fst_layout hs₁ (fun b hb => hblank b (Func.mem_map_fst_layout.1 hb)) hblocks
  refine ⟨rfl, hs, ?_, ?_, fun b hb => hdrawn b (Func.mem_map_fst_layout.2 hb)⟩
  · exact hgrows.graph.regs.trans (hregs.trans (congrArg Context.regs hgrows.context.symm))
  · exact hgrows.graph.labels.trans (hlabels.trans (congrArg Context.labels hgrows.context.symm))

theorem finished_of_build (hcon : src.func.Coherent) {g : Graph Opcode}
    (h : Builder.build converter src s = .ok g s') : ∃ t, Finished src g t :=
  ⟨_, finished_with_graph hcon h⟩

/-- A graph that was built is complete in every block, and a builder remembers how it came about. -/
theorem drawn_of_build (hcon : src.func.Coherent) {g : Graph Opcode}
    (h : Builder.build converter src s = .ok g s') :
    ∃ t, t.graph = g ∧ Sound src t ∧ g.regs = t.context.regs ∧ g.labels = t.context.labels ∧
      ∀ b < src.func.blocks.size, ∃ nss, Drawn src t b nss := by
  obtain ⟨t, ht⟩ := finished_of_build hcon h
  exact ⟨t, ht.graph, ht.between.sound, ht.regs, ht.labels, ht.drawn⟩

end X86

end Codegen
