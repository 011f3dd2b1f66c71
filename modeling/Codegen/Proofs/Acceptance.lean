import Codegen.Proofs.BlockOrder
import Codegen.Proofs.Drawing
import Codegen.Proofs.GraphSupport

/-!
# What the compiler and the builder accept

A compiler lowers a function, and a builder makes its graph, if and only if every instruction is
supported. The builder puts the nodes that an instruction chains on the chain of its block; that
succeeds because no other instruction has put them on a chain, so that the nodes that are on a
chain belong to the instructions that the builder has gone through.

## Main definitions

* `X86.Underway`: a builder that has gone through some instructions.

## Main results

* `X86.Underway.exists_buildInstr`: a builder gets through one more supported instruction.
* `X86.exists_buildBlocks`: a builder gets through all blocks.
* `X86.Supports.exists_build`, `X86.supports_of_build`: a graph is made if and only if all
  instructions are supported.
* `X86.Supports.exists_compile`, `X86.supports_of_compile`: so is a lowered function.
* `X86.compile_accepts_iff_build_accepts`: the compiler and the builder accept the same functions.
-/

namespace Codegen.X86

variable {src : Source} {c : Context} {s s' : Builder Opcode} {b : BlockId} {i : InstrId}
  {is done : List InstrId} {nss : List (List NodeId)} {op : Operation} {result : Conversion.Result}

/-! ### One more instruction -/

theorem Converted.exists_chain (h : Converted src s b i op result) :
    ∃ ns : List NodeId, result.chain = ns.map some := by
  cases h with
  | alloca | binary | icmp => exact ⟨[], rfl⟩
  | condBr => exact ⟨[_, _], rfl⟩
  | _ => exact ⟨[_], rfl⟩

/-- Exactly the instructions with effects put something on the chain. -/
theorem Converted.hasEffects_eq (h : Converted src s b i op result) :
    op.hasEffects = !result.chain.isEmpty := by
  cases h <;> rfl

/-- A builder without limit in a context that has gone through some instructions: no conversion is
in progress, and apart from the roots only nodes of those instructions are on a chain. -/
structure Underway (src : Source) (c : Context) (done : List InstrId) (s : Builder Opcode) :
    Prop where
  context : s.context = c
  limit : s.limit = 0
  free : ∀ i ∈ src.func.inserted, s.Free i
  chained : ∀ {n : NodeId} {node : Node Opcode}, s.graph.nodes[n]? = some node →
    node.chain ≠ none → node.kind = .root ∨ ∃ i ∈ done, ∃ ns, Chains s i ns ∧ n ∈ ns

/-- The nodes that an instruction chains are on no chain before the builder puts them there. -/
theorem Underway.loose (hu : Underway src c done s) {t : Builder Opcode}
    (hsteady : Builder.Steady s t) (hreach : Reaches src s t)
    (hi : src.func.blockOf i = some s.current) (hnot : i ∉ done)
    (hm : t.memo[i]? = some (.converted result)) : ∀ r ∈ result.chain, t.Loose r := by
  intro r hr
  obtain ⟨b, op, hb, -, hconv⟩ := hreach.sound.converted hm
  obtain ⟨ns, hns⟩ := hconv.exists_chain
  obtain ⟨n, -, rfl⟩ := List.mem_map.1 (hns ▸ hr)
  obtain ⟨m, args, ⟨chain, hn⟩, -⟩ := hconv.has_of_mem_chain hr
  obtain rfl : b = s.current := Option.some.inj (hb.symm.trans hi)
  refine ⟨n, _, rfl, hn, rfl, hsteady.current.symm, ?_⟩
  by_contra hchain
  rcases hu.chained (hsteady.chained hn hchain) hchain with hroot | ⟨j, hj, ns', hns', hmem⟩
  · cases hroot
  · obtain ⟨result', hm', hchain'⟩ := hns'.mono hreach.keeps.toGrows
    refine hreach.sound.disjoint hm hm' (fun hij => hnot (hij ▸ hj)) (some n) hr ?_
    rw [hchain']
    exact List.mem_map_of_mem hmem

/-- The chain of a block starts with no node of an instruction that is not on it. -/
theorem Tailed.head_notMem {tail : Builder.Tail} (hT : Tailed src b is nss tail s)
    {t : Builder Opcode} (hreach : Reaches src s t) (hm : t.memo[i]? = some (.converted result))
    (hnot : i ∉ is) : tail.head ∉ result.chain := by
  intro hmem
  obtain ⟨b, op, -, -, hconv⟩ := hreach.sound.converted hm
  obtain ⟨ns, hns⟩ := hconv.exists_chain
  obtain ⟨n, -, hn⟩ := List.mem_map.1 (hns ▸ hmem)
  have hchains := hT.chains.imp fun _ _ h => h.mono hreach.keeps.toGrows
  refine hreach.sound.not_mem_flatten hm hchains hnot n (hn ▸ hmem) ?_
  exact Graph.Linked.mem_of_some (hn ▸ hT.linked)

theorem Eligible.length_le (he : Eligible src c) {before : List InstrId}
    (hsplit : src.func.instrsOf b = before ++ is) : before.length ≤ src.func.instrs.size := by
  have hnodup : (before ++ is).Nodup := hsplit ▸ he.consistent.nodup_instrsOf b
  have hsub : before ⊆ List.range src.func.instrs.size := fun i hi =>
    List.mem_range.2 (Func.lt_instrs_of_mem he.consistent
      (hsplit ▸ List.mem_append_left _ hi))
  simpa using (hnodup.of_append_left.subperm hsub).length_le

/-- A builder gets through one more supported instruction. -/
theorem Underway.exists_buildInstr (hs : Supports src c) (he : Eligible src c)
    {before : List InstrId} (hsplit : src.func.instrsOf b = before ++ i :: is)
    {tail : Builder.Tail} (hT : Tailed src b is nss tail s) (hu : Underway src c (is ++ done) s)
    (hnot : i ∉ is ++ done) :
    ∃ tail' s', Builder.buildInstr converter src tail i s = .ok tail' s' ∧
      Underway src c (i :: is ++ done) s' := by
  have hi : i ∈ src.func.instrsOf b := hsplit ▸ List.mem_append_right _ List.mem_cons_self
  have hpoised : Builder.Poised c b (before ++ [i]) s := by
    refine ⟨hu.context, hT.current, hu.limit, fun j hj => hu.free j ?_⟩
    rw [List.append_cons] at hsplit
    exact Func.mem_inserted.2 ⟨b, hsplit ▸ List.mem_append_left _ hj⟩
  obtain ⟨r, s₁, hconvert, hsteady⟩ :=
    hs.exists_convert he hsplit (Nat.lt_succ_of_le (he.length_le hsplit)) hpoised
  have hblock : src.func.blockOf i = some s.current :=
    hT.current.symm ▸ he.consistent.mem_instrsOf.1 hi
  obtain ⟨hreach, result, hm, -⟩ :=
    visits_convert he.consistent _ hT.sound hblock hconvert
  obtain ⟨_, op, -, hop, hconv⟩ := hreach.sound.converted hm
  obtain ⟨ins, hins, hop⟩ := Option.bind_eq_some_iff.1 hop
  have hhead := hT.head_notMem hreach hm (fun h => hnot (List.mem_append_left _ h))
  obtain ⟨head, s₂, hfold, hcontext, hlimit, hmemo, hnodes⟩ :=
    Builder.exists_foldlM_prepend (i := i) (l := result.chain.reverse)
      (fun r hr => hu.loose hsteady hreach hblock hnot hm r (List.mem_reverse.1 hr))
      (List.nodup_reverse.2 hconv.nodup_chain) (mt List.mem_reverse.1 hhead)
  have heffects : ins.hasEffects = !result.chain.isEmpty := by
    rw [Codegen.Instr.hasEffects, hop]
    exact hconv.hasEffects_eq
  obtain ⟨tail', hbuild⟩ := Builder.exists_buildInstr hconvert hm
    (Func.instr_eq_ok.2 hins) heffects hfold
  have hmono {j : InstrId} {ns : List NodeId} (h : Chains s j ns) : Chains s₂ j ns := by
    rw [Chains, hmemo]
    exact h.mono hreach.keeps.toGrows
  refine ⟨tail', s₂, hbuild, hcontext.trans (hsteady.context.trans hu.context),
    hlimit.trans (hsteady.limit.trans hu.limit), fun j hj => ?_, fun {n node} hn hc => ?_⟩
  · rw [Builder.Free, hmemo]
    exact hsteady.free (hu.free j hj)
  · rcases hnodes hn hc with hn | hn
    · refine (hu.chained (hsteady.chained hn hc) hc).imp_right ?_
      rintro ⟨j, hj, ns, hns, hmem⟩
      exact ⟨j, List.mem_cons_of_mem _ hj, ns, hmono hns, hmem⟩
    · obtain ⟨ns, hns⟩ := hconv.exists_chain
      obtain ⟨m, hmem, hmn⟩ := List.mem_map.1 (hns ▸ List.mem_reverse.1 hn)
      cases hmn
      exact .inr ⟨i, List.mem_cons_self, ns, ⟨result, hmemo ▸ hm, hns⟩, hmem⟩

/-! ### Blocks -/

/-- A builder gets through the instructions of a block from the last to the first. -/
theorem Underway.exists_buildInstrs (hs : Supports src c) (he : Eligible src c)
    (hT : Tailed src b [] [] {} s) (hlt : b < s.graph.blocks.size) (hu : Underway src c done s)
    {before : List InstrId} (hsplit : src.func.instrsOf b = before ++ is)
    (hnot : ∀ i ∈ is, i ∉ done) :
    ∃ tail s', is.reverse.foldlM (Builder.buildInstr converter src) {} s = .ok tail s' ∧
      Underway src c (is ++ done) s' := by
  induction is generalizing before with
  | nil => exact ⟨{}, s, rfl, hu⟩
  | cons i is ih =>
    obtain ⟨hi, hnot⟩ := List.forall_mem_cons.1 hnot
    have hblock : ∀ j ∈ i :: is, src.func.blockOf j = some b := fun j hj =>
      he.consistent.mem_instrsOf.1 (hsplit ▸ List.mem_append_right _ hj)
    have hnodup : (before ++ i :: is).Nodup := hsplit ▸ he.consistent.nodup_instrsOf b
    obtain ⟨hfresh, hnodup⟩ := List.nodup_cons.1 hnodup.of_append_right
    obtain ⟨tail, t, hrest, hu⟩ := ih (hsplit.trans (List.append_cons ..)) hnot
    obtain ⟨-, nss, hT⟩ := exists_tailed he.consistent hT hlt
      (fun j hj => hblock j (List.mem_cons_of_mem _ hj)) hnodup hrest
    obtain ⟨tail', s', hlast, hu⟩ := hu.exists_buildInstr hs he hsplit hT
      (mt List.mem_append.1 (not_or.2 ⟨hfresh, hi⟩))
    refine ⟨tail', s', ?_, hu⟩
    rw [List.reverse_cons, List.foldlM_append, EStateM.bind_eq_ok]
    refine ⟨tail, t, hrest, ?_⟩
    simpa only [List.foldlM_cons, List.foldlM_nil, bind_pure] using hlast

theorem Underway.opened (hu : Underway src c done s) (b : BlockId) :
    Underway src c done (s.opened b) := by
  refine ⟨hu.context, hu.limit, hu.free, fun {n node} hn hc => hu.chained ?_ hc⟩
  have hsteady : Builder.Steady s (s.added (Node.root b)) := Builder.steady_added rfl
  exact hsteady.chained hn hc

/-- Putting the chain behind the root of a block puts no other node on a chain. -/
theorem Underway.closed (hu : Underway src c done s) {n : NodeId} {node : Node Opcode}
    (hn : s.graph.nodes[n]? = some node) (hroot : node.kind = .root) (tail : Builder.Tail) :
    Underway src c done (s.closed b n tail) := by
  refine ⟨hu.context, hu.limit, hu.free, fun {m node'} hm hc => ?_⟩
  change (s.chained n tail.head).graph.nodes[m]? = some node' at hm
  rw [Builder.nodes_chained] at hm
  split at hm
  · next hnm =>
    subst hnm
    rw [hn] at hm
    cases hm
    exact .inl hroot
  · exact hu.chained hm hc

/-- A builder gets through a block of supported instructions. -/
theorem Underway.exists_buildBlock (hs : Supports src c) (he : Eligible src c)
    (hbetween : Between src s) {blk : Block} (hb : src.func.blocks[b]? = some blk)
    (hblank : Blank s b) (hu : Underway src c done s)
    (hnot : ∀ i ∈ src.func.instrsOf b, i ∉ done) :
    ∃ s', Builder.buildBlock converter src b blk s = .ok () s' ∧
      Underway src c (src.func.instrsOf b ++ done) s' := by
  have hT := hbetween.opened hblank
  have hlt : b < (s.opened b).graph.blocks.size := by
    rw [(Builder.passes_opened s b).size, hbetween.size]
    exact (Array.getElem?_eq_some_iff.1 hb).1
  obtain ⟨tail, t, hfold, hu⟩ :=
    (hu.opened b).exists_buildInstrs hs he hT hlt (List.nil_append _).symm hnot
  obtain ⟨hkeeps, -⟩ := exists_tailed he.consistent hT hlt
    (fun i hi => he.consistent.mem_instrsOf.1 hi) (he.consistent.nodup_instrsOf b) hfold
  obtain ⟨chain, hn⟩ : ∃ chain, t.graph.nodes[s.graph.nodes.size]? =
      some { (Node.root b : Node Opcode) with chain } :=
    hkeeps.graph.node (by simp [Builder.opened, Builder.added, Graph.updateBlock])
  rw [Func.instrs_eq_instrsOf hb] at hfold
  exact ⟨_, Builder.buildBlock_eq_ok.2 ⟨tail, t, hfold, rfl⟩, hu.closed hn rfl tail⟩

/-- A builder gets through blocks of supported instructions one after the other. -/
theorem exists_buildBlocks (hs : Supports src c) (he : Eligible src c)
    {blks : List (BlockId × Block)}
    (hblks : ∀ b blk, (b, blk) ∈ blks → src.func.blocks[b]? = some blk)
    (hnodup : (blks.map Prod.fst).Nodup) (hbetween : Between src s)
    (hblank : ∀ b ∈ blks.map Prod.fst, Blank s b) (hu : Underway src c done s)
    (hnot : ∀ b ∈ blks.map Prod.fst, ∀ i ∈ src.func.instrsOf b, i ∉ done) :
    ∃ s', Builder.buildBlocks converter src blks s = .ok () s' := by
  induction blks generalizing s done with
  | nil => exact ⟨s, rfl⟩
  | cons blk blks ih =>
    obtain ⟨b, blk⟩ := blk
    obtain ⟨hnew, hnodup⟩ := List.nodup_cons.1 hnodup
    obtain ⟨hb, hblks⟩ := List.forall_mem_cons.1 fun p : BlockId × Block => hblks p.1 p.2
    obtain ⟨hbegin, hblank⟩ := List.forall_mem_cons.1 hblank
    obtain ⟨hfirst, hnot⟩ := List.forall_mem_cons.1 hnot
    obtain ⟨t, hblock, hu⟩ := hu.exists_buildBlock hs he hbetween hb hbegin hfirst
    obtain ⟨hbetween, hpass, -⟩ := buildBlock_eq_ok he.consistent hbetween hb hbegin hblock
    have hblank : ∀ c ∈ blks.map Prod.fst, Blank t c := fun c hc =>
      (hblank c hc).passes hpass fun h => hnew (h ▸ hc)
    have hnot : ∀ c ∈ blks.map Prod.fst, ∀ i ∈ src.func.instrsOf c,
        i ∉ src.func.instrsOf b ++ done := by
      intro c hc i hi hmem
      rcases List.mem_append.1 hmem with hmem | hmem
      · -- An instruction is in one block only.
        have hbc := (he.consistent.mem_instrsOf.1 hmem).symm.trans (he.consistent.mem_instrsOf.1 hi)
        exact hnew (Option.some.inj hbc ▸ hc)
      · exact hnot c hc i hi hmem
    obtain ⟨s', hrest⟩ := ih (fun b blk => hblks (b, blk)) hnodup hbetween hblank hu hnot
    refine ⟨s', ?_⟩
    simp only [Builder.buildBlocks, EStateM.bind_eq_ok, atPlace_eq_ok]
    exact ⟨(), t, hblock, hrest⟩

/-! ### Graphs of functions -/

/-- No edge of a function leads out of it, so that there is a graph to begin with. -/
theorem exists_emptyGraph (hcon : src.func.Consistent) (c : Context) :
    ∃ g : Graph Opcode, Builder.emptyGraph src.func c = .ok g := by
  have hedges : ¬ (src.func.layout.any fun b =>
      (b.2.preds ++ b.2.succs).any (src.func.blocks.size ≤ ·)) = true := by
    simp only [List.any_eq_true, List.mem_append, decide_eq_true_eq, not_exists, not_and, not_le]
    rintro ⟨b, blk⟩ hb t (ht | ht)
    · exact hcon.pred_lt (Func.preds_eq_predsOf (Func.mem_layout.1 hb) ▸ ht)
    · exact hcon.edges.succ_lt (b := b) (by simpa [Func.succsOf, Func.mem_layout.1 hb] using ht)
  rw [Builder.emptyGraph, if_neg hedges]
  exact ⟨_, rfl⟩

/-- A builder is set up with a graph without nodes if the function has a context. -/
theorem exists_startBuilder (hcon : src.func.Consistent) (hc : Context.ofFunc src.func = .ok c)
    (s : Builder Opcode) : ∃ g : Graph Opcode, g.nodes = #[] ∧
      Builder.start src s = .ok () { s with
        context := c
        graph := g
        memo := Array.replicate src.func.instrs.size .unseen } := by
  obtain ⟨g, hg⟩ := exists_emptyGraph hcon c
  refine ⟨g, (Builder.emptyGraph_eq_ok hg).2.2.1, ?_⟩
  rw [Builder.start_eq, hc]
  simp only [hg]

/-- A builder makes the graph of a function of supported instructions. -/
theorem Supports.exists_build (hs : Supports src c) (he : Eligible src c)
    (hc : Context.ofFunc src.func = .ok c) (hlimit : s.limit = 0) :
    ∃ g s', Builder.build converter src s = .ok g s' := by
  obtain ⟨g, hnodes, hstart⟩ := exists_startBuilder he.consistent hc s
  obtain ⟨hbetween, -, -, hblank⟩ := startBuilder_eq_ok he.consistent hstart
  have hu : Underway src c [] { s with
      context := c
      graph := g
      memo := Array.replicate src.func.instrs.size .unseen } := by
    refine ⟨rfl, hlimit, fun i hi => ?_, fun {n node} hn => ?_⟩
    · obtain ⟨b, hi⟩ := Func.mem_inserted.1 hi
      exact ⟨.unseen, by simp [Func.lt_instrs_of_mem he.consistent hi], by simp⟩
    · simp [hnodes] at hn
  obtain ⟨t, hblocks⟩ := exists_buildBlocks hs he (fun _ _ => Func.mem_layout.1)
    src.func.nodup_map_fst_layout hbetween (fun b hb => hblank b (Func.mem_map_fst_layout.1 hb)) hu
    (fun _ _ _ _ => List.not_mem_nil)
  exact ⟨_, _, Builder.build_eq_ok.2 ⟨_, t, hstart, hblocks, rfl, rfl⟩⟩

/-- If a builder makes the graph of a function, it has converted all instructions. -/
theorem supports_of_build (he : Eligible src c) (hc : Context.ofFunc src.func = .ok c)
    {g : Graph Opcode} (h : Builder.build converter src s = .ok g s') : Supports src c := by
  obtain ⟨s₁, t, hstart, hblocks, -, -⟩ := Builder.build_eq_ok.1 h
  obtain ⟨hbetween, -, -, hblank⟩ := startBuilder_eq_ok he.consistent hstart
  obtain ⟨-, -, hdrawn, -⟩ := buildBlocks_eq_ok he.consistent (fun _ _ => Func.mem_layout.1)
    src.func.nodup_map_fst_layout hbetween (fun b hb => hblank b (Func.mem_map_fst_layout.1 hb))
    hblocks
  have hvetted : Vetted src c s₁ := by
    obtain ⟨g, -, hstart'⟩ := exists_startBuilder he.consistent hc s
    cases hstart.symm.trans hstart'
    exact ⟨rfl, fun hm => by simp [Array.getElem?_replicate] at hm⟩
  have hend : Vetted src c t := EStateM.after_eq_of_ok hblocks ▸
    Builder.maintains_buildBlocks (lasting_vetted he) _ s₁ hvetted
  intro b i op hi hop
  obtain ⟨nss, hdrawn⟩ := hdrawn b (Func.mem_map_fst_layout.2 (Func.lt_size_of_mem_instrsOf hi))
  obtain ⟨ns, -, result, hm, -⟩ := exists_mem_of_forall₂ hdrawn.chains hi
  exact hend.supported hm hi hop

/-! ### Lowered functions -/

section Lowering

variable {s s' : Compiler}

theorem checkLimit_eq (hlimit : s.limit = 0) : Compiler.checkLimit s = .ok () s := by
  simp only [Compiler.checkLimit, EStateM.bind_eq_ok, EStateM.get_eq_ok]
  refine ⟨s, s, ⟨rfl, rfl⟩, ?_⟩
  rw [if_neg (by omega)]
  rfl

theorem exists_lowerInstrs (h : ∀ i ∈ is, ∃ code, select src i c = .ok code c)
    (hc : s.context = c) (hlimit : s.limit = 0) :
    ∃ s', Compiler.lowerInstrs src is s = .ok () s' ∧ s'.context = c ∧ s'.limit = 0 := by
  induction is generalizing s with
  | nil => exact ⟨s, rfl, hc, hlimit⟩
  | cons i is ih =>
    obtain ⟨⟨code, hcode⟩, h⟩ := List.forall_mem_cons.1 h
    have hinstr : Compiler.lowerInstr src i s =
        .ok () { s with emitted := s.emitted ++ code } := by
      subst hc
      simp only [Compiler.lowerInstr, EStateM.run, hcode]
    obtain ⟨s', hrest, hend⟩ := ih h (s := { s with emitted := s.emitted ++ code }) hc hlimit
    refine ⟨s', ?_, hend⟩
    simp only [Compiler.lowerInstrs, EStateM.bind_eq_ok]
    exact ⟨(), _, hinstr, (), _, checkLimit_eq hlimit, hrest⟩

theorem exists_lowerBlock (hready : Context.Ready src.func c) {blk : Block}
    (hb : src.func.blocks[b]? = some blk)
    (h : ∀ i ∈ src.func.instrsOf b, ∃ code, select src i c = .ok code c)
    (hc : s.context = c) (hlimit : s.limit = 0) :
    ∃ range s', Compiler.lowerBlock src (b, blk) s = .ok range s' ∧ s'.context = c ∧
      s'.limit = 0 := by
  rw [Func.instrs_eq_instrsOf hb] at h
  obtain ⟨t, hinstrs, rfl, hlimit⟩ := exists_lowerInstrs h hc hlimit
  have hlabel := hready.label_eq_ok.2 ⟨(Array.getElem?_eq_some_iff.1 hb).1, rfl⟩
  refine ⟨⟨b + 1, blk.label b, s.emitted.size, t.emitted.size⟩, t, ?_, rfl, hlimit⟩
  simp only [Compiler.lowerBlock, EStateM.bind_eq_ok, EStateM.get_eq_ok, atPlace_eq_ok,
    liftFaultStop_eq_ok, EStateM.pure_eq_ok]
  exact ⟨s, s, ⟨rfl, rfl⟩, (), t, hinstrs, t, t, ⟨rfl, rfl⟩, _, t, ⟨hlabel, rfl⟩, rfl, rfl⟩

/-- A compiler lowers blocks for whose instructions something is selected. -/
theorem exists_lowerBlocks (hready : Context.Ready src.func c) {blks : List (BlockId × Block)}
    (hblks : ∀ b blk, (b, blk) ∈ blks → src.func.blocks[b]? = some blk)
    (h : ∀ {b i}, i ∈ src.func.instrsOf b → ∃ code, select src i c = .ok code c)
    (hc : s.context = c) (hlimit : s.limit = 0) :
    ∃ ranges s', blks.mapM (Compiler.lowerBlock src) s = .ok ranges s' := by
  induction blks generalizing s with
  | nil => exact ⟨[], s, rfl⟩
  | cons blk blks ih =>
    obtain ⟨b, blk⟩ := blk
    obtain ⟨hb, hblks⟩ := List.forall_mem_cons.1 fun p : BlockId × Block => hblks p.1 p.2
    obtain ⟨range, t, hblock, hc, hlimit⟩ := exists_lowerBlock hready hb (fun _ => h) hc hlimit
    obtain ⟨ranges, s', hrest⟩ := ih (fun b blk => hblks (b, blk)) hc hlimit
    refine ⟨range :: ranges, s', ?_⟩
    simp only [List.mapM_cons, EStateM.bind_eq_ok, EStateM.pure_eq_ok]
    exact ⟨range, t, hblock, ranges, s', hrest, rfl, rfl⟩

/-- A compiler lowers a function of supported instructions. -/
theorem Supports.exists_compile (hs : Supports src c) (he : Eligible src c)
    (hc : Context.ofFunc src.func = .ok c) (hlimit : s.limit = 0) :
    ∃ code s', Compiler.compile src s = .ok code s' := by
  have hstart : Compiler.start src s = .ok () { context := c, limit := s.limit } := by
    rw [Compiler.start_eq, hc]
  obtain ⟨ranges, t, hl⟩ := exists_lowerBlocks (s := { context := c, limit := s.limit }) he.ready
    (fun _ _ => Func.mem_layout.1) (fun hi => hs.exists_select he hi) rfl hlimit
  exact ⟨_, _, compile_eq_ok.2 ⟨_, ranges, t, hstart, hl, rfl, rfl⟩⟩

theorem exists_select_of_lowerInstrs (hcon : src.func.Coherent)
    (h : Context.Ready src.func s.context) (his : ∀ i ∈ is, i ∈ src.func.instrsOf b)
    (hl : Compiler.lowerInstrs src is s = .ok () s') :
    ∀ i ∈ is, ∃ code c', select src i s.context = .ok code c' := by
  induction is generalizing s with
  | nil => exact fun i hi => absurd hi List.not_mem_nil
  | cons i is ih =>
    obtain ⟨hi, his⟩ := List.forall_mem_cons.1 his
    simp only [Compiler.lowerInstrs, EStateM.bind_eq_ok] at hl
    obtain ⟨_, s₁, hl₁, _, s₂, hl₂, hl⟩ := hl
    obtain rfl := checkLimit_eq_ok hl₂
    obtain ⟨hc, -⟩ := lowerInstr_eq_ok hcon h hi hl₁
    refine List.forall_mem_cons.2 ⟨?_, hc ▸ ih (hc ▸ h) his hl⟩
    unfold Compiler.lowerInstr at hl₁
    split at hl₁
    · next code c' hselect => exact ⟨code, c', hselect⟩
    · cases hl₁

/-- If a compiler lowers blocks, something is selected for every instruction. -/
theorem exists_select_of_lowerBlocks (hcon : src.func.Coherent)
    (h : Context.Ready src.func s.context) {blks : List (BlockId × Block)}
    (hblks : ∀ b blk, (b, blk) ∈ blks → src.func.blocks[b]? = some blk) {ranges : List BlockRange}
    (hl : blks.mapM (Compiler.lowerBlock src) s = .ok ranges s') :
    ∀ b ∈ blks.map Prod.fst, ∀ i ∈ src.func.instrsOf b,
      ∃ code c', select src i s.context = .ok code c' := by
  induction blks generalizing s ranges with
  | nil => exact fun b hb => absurd hb List.not_mem_nil
  | cons blk blks ih =>
    obtain ⟨b, blk⟩ := blk
    obtain ⟨hb, hblks⟩ := List.forall_mem_cons.1 fun p : BlockId × Block => hblks p.1 p.2
    simp only [List.mapM_cons, EStateM.bind_eq_ok, EStateM.pure_eq_ok] at hl
    obtain ⟨range, s₁, hl₁, ranges, s₂, hl₂, -, rfl⟩ := hl
    obtain ⟨hc, -⟩ := lowerBlock_eq_ok hcon h hb hl₁
    refine List.forall_mem_cons.2 ⟨?_, hc ▸ ih (hc ▸ h) (fun b blk => hblks (b, blk)) hl₂⟩
    simp only [Compiler.lowerBlock, EStateM.bind_eq_ok, EStateM.get_eq_ok, atPlace_eq_ok] at hl₁
    obtain ⟨_, _, ⟨rfl, rfl⟩, _, _, hl₁, -⟩ := hl₁
    rw [← Func.instrs_eq_instrsOf hb] at hl₁
    exact exists_select_of_lowerInstrs (b := b) hcon h (fun _ hi => hi) hl₁

theorem supports_of_compile (he : Eligible src c) (hc : Context.ofFunc src.func = .ok c)
    {code : Lowered} (h : Compiler.compile src s = .ok code s') : Supports src c := by
  obtain ⟨s₁, ranges, t, hstart, hl, -, -⟩ := compile_eq_ok.1 h
  obtain rfl : c = s₁.context :=
    Except.ok.inj (hc.symm.trans (Compiler.ofFunc_of_start hstart).2)
  have hselect := exists_select_of_lowerBlocks he.consistent he.ready
    (fun _ _ => Func.mem_layout.1) hl
  refine supports_of_select he fun i hi => ?_
  obtain ⟨b, hi⟩ := Func.mem_inserted.1 hi
  exact hselect b (Func.mem_map_fst_layout.2 (Func.lt_size_of_mem_instrsOf hi)) i hi

end Lowering

/-! ### The functions that are accepted -/

theorem eligible_of_ofFunc (hf : src.func.Built) (htypes : src.types.Interned)
    (hcheck : src.func.check src.types = .ok ()) (hregular : src.func.Regular)
    (hc : Context.ofFunc src.func = .ok c) : Eligible src c := by
  have hcon := hf.consistent
  have hready : Context.Ready src.func c := by
    unfold Context.ofFunc at hc
    split at hc
    · next hinit =>
      cases hc
      exact Context.ready_of_init hcon hinit
    · cases hc
  exact ⟨hcon, htypes, hcon.wellFormed (Func.operandsExist_of_users hready.users) hcheck, hregular,
    hready⟩

/-- Without limits the compiler and the builder accept the same functions, among those that are
built step by step, pass the check and are regular. -/
theorem compile_accepts_iff_build_accepts {s : Compiler} {t : Builder Opcode}
    (hf : src.func.Built) (htypes : src.types.Interned)
    (hcheck : src.func.check src.types = .ok ()) (hregular : src.func.Regular)
    (hs : s.limit = 0) (ht : t.limit = 0) :
    (∃ code s', Compiler.compile src s = .ok code s') ↔
      ∃ g t', Builder.build converter src t = .ok g t' := by
  cases hc : Context.ofFunc src.func with
  | error e =>
    -- Both stop when they are set up.
    refine iff_of_false ?_ ?_
    · rintro ⟨code, s', h⟩
      obtain ⟨_, _, _, hstart, -⟩ := compile_eq_ok.1 h
      cases hc.symm.trans (Compiler.ofFunc_of_start hstart).2
    · rintro ⟨g, t', h⟩
      obtain ⟨_, _, hstart, -⟩ := Builder.build_eq_ok.1 h
      rw [Builder.start_eq, hc] at hstart
      cases hstart
  | ok c =>
    have he := eligible_of_ofFunc hf htypes hcheck hregular hc
    constructor
    · rintro ⟨code, s', h⟩
      exact (supports_of_compile he hc h).exists_build he hc ht
    · rintro ⟨g, t', h⟩
      exact (supports_of_build he hc h).exists_compile he hc hs

/-- The blocks of a function that adds the numbers from its argument down to one to the argument, in
a stack slot. -/
def countdownBlocks : List (List Operation) :=
  [[.alloca 4 2 1 4, .store 1 4, .br 1],
   [.phi 2 [(1, 0), (13, 2)], .icmp .eq 3 7 2, .condBr 8 3 2],
   [.load 2 4, .binary .add 2 10 7, .store 11 4, .binary .sub 2 7 3, .br 1],
   [.load 2 4, .ret (some 15)]]

/-- The function with these blocks. -/
def countdown : Source where
  types := Func.sampleTypes
  func := (Func.sampleStart.assemble [(0, 2), (1, 2)] countdownBlocks).getD Func.sampleStart

theorem built_countdown : countdown.func.Built := by
  simpa only [countdown] using Func.built_assembled _ _

theorem regular_countdown : countdown.func.Regular := by
  have hentry : countdown.func.Reachable 0 := .entry (by decide +kernel)
  have hloop : countdown.func.Reachable 1 := hentry.step (by decide +kernel)
  refine ⟨fun b hb => ?_, by decide +kernel, by decide +kernel, by decide +kernel⟩
  have hblocks : countdown.func.blocks.size = 4 := by decide +kernel
  rw [hblocks] at hb
  interval_cases b
  · exact hentry
  · exact hloop
  · exact hloop.step (by decide +kernel)
  · exact hloop.step (by decide +kernel)

theorem regular_lacking : Compiler.lacking.func.Regular := by
  have hentry : Compiler.lacking.func.Reachable 0 := .entry (by decide)
  refine ⟨fun b hb => ?_, by decide, by decide, by decide⟩
  have hblocks : Compiler.lacking.func.blocks.size = 2 := by decide
  rw [hblocks] at hb
  interval_cases b
  · exact hentry
  · exact hentry.step (by decide)

/-- A function with a loop is accepted, and one with a product is not. -/
theorem compile_accepts_iff_build_accepts_samples :
    (countdown.func.Built ∧ countdown.types.Interned ∧
      countdown.func.check countdown.types = .ok () ∧ countdown.func.Regular ∧
      (∃ code s', Compiler.compile countdown {} = .ok code s') ∧
      ∃ g t', Builder.build converter countdown {} = .ok g t') ∧
    Compiler.lacking.func.Built ∧ Compiler.lacking.types.Interned ∧
      Compiler.lacking.func.check Compiler.lacking.types = .ok () ∧
      Compiler.lacking.func.Regular ∧
      (¬∃ code s', Compiler.compile Compiler.lacking {} = .ok code s') ∧
      ¬∃ g t', Builder.build converter Compiler.lacking {} = .ok g t' := by
  have hcountdown : countdown.func.check countdown.types = .ok () := by decide +kernel
  have hlacking : Compiler.lacking.func.check Compiler.lacking.types = .ok () := by decide +kernel
  have hcompiles : EStateM.isOk (Compiler.compile countdown {}) = true := by decide +kernel
  have haccepted := EStateM.eq_ok_of_isOk hcompiles
  have hstops : EStateM.isOk (Compiler.compile Compiler.lacking {}) = false := by decide +kernel
  have hrefused : ¬∃ code s', Compiler.compile Compiler.lacking {} = .ok code s' := by
    rintro ⟨code, s', h⟩
    rw [h] at hstops
    cases hstops
  have htypes := Func.interned_sampleTypes
  refine ⟨⟨built_countdown, htypes, hcountdown, regular_countdown, haccepted, ?_⟩,
    Compiler.built_lacking, htypes, hlacking, regular_lacking, hrefused, ?_⟩
  · exact (compile_accepts_iff_build_accepts built_countdown htypes hcountdown regular_countdown
      rfl rfl).1 haccepted
  · exact mt (compile_accepts_iff_build_accepts Compiler.built_lacking htypes hlacking
      regular_lacking rfl rfl).2 hrefused

end Codegen.X86
