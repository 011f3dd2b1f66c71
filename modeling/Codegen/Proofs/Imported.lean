import Codegen.Proofs.Numbering
import Codegen.Proofs.WellFormed

/-!
# Imported functions

The second pass of an import gives the instructions their operations and puts them into their
blocks. What the first pass numbered stays as it is, and each instruction keeps the operation that
it gets. An imported function therefore has the blocks of the function that it stands for, in the
same order and with the same names, and in each block an instruction for each of its instructions
and one for its terminator. Names stand for the arguments, results and blocks at the same positions,
also where they are used before the place that they name.

## Main definitions

* `Func.Retains`: what stays while instructions get operations.
* `Llvm.Completed`: the second pass after some instructions.
* `Llvm.Func.scopeIn`: what the names of a function stand for in an imported one.
* `Llvm.BlockImage`, `Llvm.FuncImage`: the blocks and functions that stand for others.

## Main results

* `Llvm.Completed.step`, `Llvm.Completed.run`: one instruction, and all of them.
* `Llvm.Completed.funcImage`: what both passes leave stands for the function.
* `Llvm.importModule_eq_ok`: the functions of a module are imported one by one.
-/

namespace Codegen

/-- Two lists that are related to a third one. -/
theorem forall₂_trans {α β γ : Type} {R : α → β → Prop} {S : β → γ → Prop} {l : List α}
    {m : List β} {r : List γ} (hlm : List.Forall₂ R l m) (hmr : List.Forall₂ S m r) :
    List.Forall₂ (fun a c => ∃ b, R a b ∧ S b c) l r := by
  induction hlm generalizing r with
  | nil =>
    cases hmr
    exact .nil
  | cons hab _ ih =>
    cases hmr with
    | cons hbc hmr => exact .cons ⟨_, hab, hbc⟩ (ih hmr)

/-- Two lists that are related have related elements at each position. -/
theorem exists_getElem?_of_forall₂ {α β : Type} {R : α → β → Prop} {l : List α} {r : List β}
    (h : List.Forall₂ R l r) {n : Nat} {a : α} (ha : l[n]? = some a) :
    ∃ b, r[n]? = some b ∧ R a b := by
  obtain ⟨hn, rfl⟩ := List.getElem?_eq_some_iff.1 ha
  have hn' : n < r.length := h.length_eq ▸ hn
  exact ⟨r[n], List.getElem?_eq_getElem hn', h.get hn hn'⟩

/-! ### What stays while operations are given -/

namespace Func

variable {f g h : Func} {b : BlockId} {i j : InstrId}

/-- What is known of a function before its instructions get operations stays true. -/
structure Retains (f g : Func) : Prop where
  index : g.index = f.index
  name : g.name = f.name
  sig : g.sig = f.sig
  params : g.params = f.params
  values : ∀ (v : ValueId) (x : Value), f.values[v]? = some x → g.values[v]? = some x
  names : g.names = f.names
  results : ∀ i : InstrId, g.instrs[i]?.map (·.result) = f.instrs[i]?.map (·.result)

theorem Retains.refl (f : Func) : f.Retains f :=
  ⟨rfl, rfl, rfl, rfl, fun _ _ hx => hx, rfl, fun _ => rfl⟩

theorem Retains.trans (hfg : f.Retains g) (hgh : g.Retains h) : f.Retains h where
  index := hgh.index.trans hfg.index
  name := hgh.name.trans hfg.name
  sig := hgh.sig.trans hfg.sig
  params := hgh.params.trans hfg.params
  values v x hx := hgh.values v x (hfg.values v x hx)
  names := hgh.names.trans hfg.names
  results i := (hgh.results i).trans (hfg.results i)

theorem retains_updateBlock (change : Block → Block) (hname : ∀ blk, (change blk).name = blk.name) :
    f.Retains (f.updateBlock b change) := by
  have hhead : (f.updateBlock b change).index = f.index ∧ (f.updateBlock b change).name = f.name ∧
      (f.updateBlock b change).sig = f.sig := by
    unfold updateBlock
    split <;> exact ⟨rfl, rfl, rfl⟩
  obtain ⟨hindex, htitle, hsig⟩ := hhead
  exact ⟨hindex, htitle, hsig, by simp, by simp, names_updateBlock change hname, by simp⟩

theorem retains_updateInstr (change : Instr → Instr)
    (hresult : ∀ ins, (change ins).result = ins.result) : f.Retains (f.updateInstr i change) := by
  have hhead : (f.updateInstr i change).index = f.index ∧ (f.updateInstr i change).name = f.name ∧
      (f.updateInstr i change).sig = f.sig := by
    unfold updateInstr
    split <;> exact ⟨rfl, rfl, rfl⟩
  obtain ⟨hindex, htitle, hsig⟩ := hhead
  refine ⟨hindex, htitle, hsig, by simp, by simp, by simp [names], fun j => ?_⟩
  rw [getElem?_instrs_updateInstr]
  split
  · next hj =>
    subst hj
    cases f.instrs[j]? <;> simp [hresult]
  · rfl

theorem retains_setOperation {op : Operation} (hg : f.setOperation i op = .ok g) :
    f.Retains g := by
  obtain ⟨-, rfl⟩ := setOperation_eq_ok hg
  exact retains_updateInstr _ fun _ => rfl

theorem retains_connectAll (targets : List BlockId) : f.Retains (f.connectAll b targets) := by
  induction targets generalizing f with
  | nil => exact .refl f
  | cons s targets ih =>
    have hconnect : f.Retains (f.connect b s) := by
      rw [connect]
      refine Retains.trans (retains_updateBlock _ ?_) (retains_updateBlock _ ?_)
      all_goals exact fun _ => rfl
    exact hconnect.trans ih

/-- Edges are recorded only to existing blocks. -/
theorem lt_size_of_forM_link {targets : List BlockId} (h : targets.forM (link b) f = .ok () g) :
    ∀ s ∈ targets, s < f.blocks.size := by
  induction targets generalizing f with
  | nil => simp
  | cons s targets ih =>
    obtain ⟨_, f', hs, h⟩ := EStateM.bind_eq_ok.1 h
    obtain ⟨hlt, rfl⟩ := link_eq_ok hs
    exact List.forall_mem_cons.2 ⟨hlt, by simpa using ih h⟩

/-- An insertion that is made is admitted. -/
theorem admits_of_insert (h : (insert b i).run f = .ok () g) : f.Admits (.insert b i) := by
  obtain ⟨hb, -, op, hop, hlinks⟩ := insert_eq_ok h
  have htargets := lt_size_of_forM_link hlinks
  exact ⟨hb, by simp [hop], by simpa [successorsOf, hop, attach] using htargets⟩

theorem eq_connectAll_of_insert (h : (insert b i).run f = .ok () g) :
    g = (f.attach b i).connectAll b (f.successorsOf i) := by
  rcases run_insert (admits_of_insert h) with ⟨-, hok⟩ | ⟨-, hstop⟩
  · cases h.symm.trans hok
    rfl
  · cases h.symm.trans hstop

theorem retains_insert (h : (insert b i).run f = .ok () g) : f.Retains g := by
  obtain rfl := eq_connectAll_of_insert h
  have hattach : f.Retains (f.attach b i) := by
    rw [attach]
    refine Retains.trans (retains_updateInstr _ ?_) (retains_updateBlock _ ?_)
    all_goals exact fun _ => rfl
  exact hattach.trans (retains_connectAll _)

theorem opOf_insert (h : (insert b i).run f = .ok () g) : g.opOf j = f.opOf j := by
  obtain rfl := eq_connectAll_of_insert h
  rw [opOf, instrs_connectAll]
  exact opOf_attach

end Func

namespace Llvm

/-! ### The second pass -/

variable {m : Module} {scope : Scope} {f : Func} {p : Pending} {s₀ s s' : Importer}
  {pending done : List Pending}

theorem Importer.Grows.retains (h : s.Grows s') : s.func.Retains s'.func := by
  have hfunc := h.func
  refine ⟨?_, ?_, ?_, ?_, h.values, ?_, fun i => ?_⟩ <;> rw [hfunc]
  rfl

/-- What is done with one instruction: its operation is imported, the instruction gets it, and is
put at the end of its block. -/
theorem complete_eq_ok (h : complete m scope f p s = .ok () s') :
    ∃ op s₁ g, s.Grows s₁ ∧ SourceImage m scope s₁ p.source op ∧
      s₁.func.setOperation p.instr op = .ok g ∧
      (Codegen.Func.insert p.block p.instr).run g = .ok () s'.func ∧ s'.types = s₁.types := by
  obtain ⟨op, s₁, hop, h⟩ := EStateM.bind_eq_ok.1 h
  obtain ⟨_, _, hget, h⟩ := EStateM.bind_eq_ok.1 h
  obtain ⟨rfl, rfl⟩ := EStateM.get_eq_ok.1 hget
  obtain ⟨g, s₂, hg, h⟩ := EStateM.bind_eq_ok.1 h
  obtain ⟨hset, rfl⟩ := liftStop_eq_ok.1 hg
  obtain ⟨_, s₃, hput, h⟩ := EStateM.bind_eq_ok.1 h
  obtain rfl := EStateM.set_eq_ok.1 hput
  have hgives : s.Grows s₁ ∧ SourceImage m scope s₁ p.source op := by
    cases hsource : p.source with
    | inl source =>
      rw [hsource] at hop
      exact yields_operation f source s s₁ op (atPlace_eq_ok.1 hop)
    | inr t =>
      rw [hsource] at hop
      exact yields_terminatorOperation f t s s₁ op (atPlace_eq_ok.1 hop)
  refine ⟨op, s₁, g, hgives.1, hgives.2, liftFault_eq_ok.1 hset, ?_⟩
  rw [onFunc] at h
  split at h
  · next hins =>
    cases h
    exact ⟨hins, rfl⟩
  · cases h

/-- The second pass after some instructions: each of them has an operation that stands for what it
is imported from, and is in its block behind those before. -/
structure Completed (m : Module) (scope : Scope) (s₀ : Importer) (done : List Pending)
    (s : Importer) : Prop where
  types : s₀.types.Extends s.types
  retains : s₀.func.Retains s.func
  traced : ∃ steps, s.func.Traced steps ∧
    Codegen.Func.insertions steps = done.map fun p => (p.block, p.instr)
  ops : ∀ p ∈ done, ∃ op, s.func.opOf p.instr = some op ∧ SourceImage m scope s p.source op

/-- One more instruction. -/
theorem Completed.step (h : Completed m scope s₀ done s)
    (hstep : complete m scope f p s = .ok () s') : Completed m scope s₀ (done ++ [p]) s' := by
  obtain ⟨op, s₁, g, hgrows, himage, hset, hins, htypes⟩ := complete_eq_ok hstep
  obtain ⟨steps, hsteps, hlog⟩ := h.traced
  obtain ⟨steps₁, hsteps₁, hlog₁⟩ := hgrows.traced hsteps
  have hretains₁ := hgrows.retains
  have hretains := (Codegen.Func.retains_setOperation hset).trans (Codegen.Func.retains_insert hins)
  have hkeeps₁ : s₁.Keeps s' := ⟨htypes ▸ .refl _, hretains.values⟩
  have hkeeps : s.Keeps s' := hgrows.toKeeps.trans hkeeps₁
  have hblank : s₁.func.blockOf p.instr = none := by
    obtain ⟨-, hblank, -⟩ := Codegen.Func.insert_eq_ok hins
    obtain ⟨-, rfl⟩ := Codegen.Func.setOperation_eq_ok hset
    rwa [Codegen.Func.blockOf_setOperation] at hblank
  have hop (i : InstrId) : s'.func.opOf i = if i = p.instr then some op else s.func.opOf i := by
    rw [Codegen.Func.opOf_insert hins]
    obtain ⟨hlt, rfl⟩ := Codegen.Func.setOperation_eq_ok hset
    rw [Codegen.Func.opOf_updateInstr, hgrows.func]
    split
    · simp [hgrows.func ▸ hlt]
    · rfl
  refine ⟨h.types.trans hkeeps.types, (h.retains.trans hretains₁).trans hretains, ?_, ?_⟩
  · refine ⟨_, (hsteps₁.operation hblank hset).insert (Codegen.Func.admits_of_insert hins) hins, ?_⟩
    rw [Codegen.Func.insertions_append, Codegen.Func.insertions_append, hlog₁, hlog]
    simp [Codegen.Func.insertions]
  · intro q hq
    rcases List.mem_append.1 hq with hq | hq
    · -- An instruction that is in a block is not the one that gets its operation now.
      obtain ⟨op', hop', himage'⟩ := h.ops q hq
      have hplaced : s₁.func.blockOf q.instr = some q.block := by
        rw [← hsteps₁.mem_insertions, hlog₁, hlog]
        exact List.mem_map_of_mem hq
      have hne : q.instr ≠ p.instr := by
        intro heq
        rw [heq, hblank] at hplaced
        cases hplaced
      exact ⟨op', by rw [hop, if_neg hne, hop'], lasting_sourceImage _ _ _ _ himage' hkeeps⟩
    · obtain rfl := List.mem_singleton.1 hq
      exact ⟨op, by rw [hop, if_pos rfl], lasting_sourceImage _ _ _ _ himage hkeeps₁⟩

/-- All instructions, one after the other. -/
theorem Completed.run (h : Completed m scope s₀ done s)
    (hrun : pending.forM (complete m scope f) s = .ok () s') :
    Completed m scope s₀ (done ++ pending) s' := by
  induction pending generalizing done s with
  | nil =>
    obtain ⟨-, rfl⟩ := EStateM.pure_eq_ok.1 hrun
    rwa [List.append_nil]
  | cons p pending ih =>
    obtain ⟨_, s₁, hstep, hrun⟩ := EStateM.bind_eq_ok.1 hrun
    simpa using ih (h.step hstep) hrun

/-! ### Functions that stand for others -/

/-- What an operation of a block is imported from. -/
def Block.sources (blk : Block) : List (InstOp ⊕ Terminator) :=
  blk.insts.map (.inl ·.op) ++ blk.term.toList.map .inr

/-- The names of the blocks to which a terminator leads. -/
def Terminator.targets : Terminator → List Name
  | .br (.block n) => [n]
  | .br .param => []
  | .condBr _ t e => [t, e]
  | .ret _ => []
  | .invoke _ _ _ _ _ blocks => blocks
  | .other _ _ _ blocks => blocks

/-- The blocks of a function with their names, in the order of the text. -/
def Func.blockNumbers (f : Func) : List (Name × BlockId) := (f.blocks.map (·.name)).zipIdx

/-- Whether the terminator of a block leads to another. -/
def Func.leadsTo (f : Func) (b s : BlockId) : Bool :=
  (f.blocks[b]?.bind (·.term)).any fun t =>
    t.targets.any fun n => f.blockNumbers.lookup n == some s

/-- What the names of a function stand for in another one: a parameter for the argument at its
position, the result of an instruction for that of the instruction at its position, and a block for
the block at its position. -/
def Func.scopeIn (f : Func) (g : Codegen.Func) : Scope where
  values := (f.params.map (·.name)).zip g.params ++ (f.lines.zip g.inserted).filterMap fun l =>
    l.1.result.bind fun n => g.instrs[l.2]?.map fun ins => (n, ins.result)
  blocks := f.blockNumbers

/-- A block has the name of another one, and its instructions stand one by one for those of the
other and for its terminator. -/
structure BlockImage (m : Module) (scope : Scope) (s : Importer) (blk : Block)
    (c : Codegen.Block) : Prop where
  name : c.name = blk.name.shown
  term : ∃ t, blk.term = some t
  code : List.Forall₂ (fun source i => ∃ op, s.func.opOf i = some op ∧
    SourceImage m scope s source op) blk.sources c.instrs

/-- A function stands for another one. -/
structure FuncImage (m : Module) (types : TypeTable) (f : Func) (g : Codegen.Func) : Prop where
  built : g.Built
  name : g.name = f.name.shown
  sig : TypeImage m.types types f.type g.sig
  /-- The arguments are those for the parameters. -/
  params : List.Forall₂ (fun p v => ∃ n t, g.values[v]? = some (.arg n t) ∧
    TypeImage m.types types p.type t) f.params g.params
  blocks : List.Forall₂ (BlockImage m (f.scopeIn g) ⟨types, g⟩) f.blocks g.blocks.toList
  /-- The predecessors of a block are in layout order. -/
  preds : ∀ s, g.predsOf s = g.blockIds.filter (f.leadsTo · s)

section Successors

variable {op : InstOp} {t : Terminator} {o : Operation} {b : BlockId}

theorem OpImage.successors_eq (h : OpImage m scope s op o) : o.successors = [] := by
  cases h <;> rfl

theorem TermImage.mem_successors (h : TermImage m scope s t o) :
    b ∈ o.successors ↔ ∃ n ∈ t.targets, scope.blocks.lookup n = some b := by
  cases h with
  | br hb => simp [Operation.successors, Terminator.targets, hb, eq_comm]
  | condBr hc ht he => simp [Operation.successors, Terminator.targets, ht, he, eq_comm]
  | ret | retValue => simp [Operation.successors, Terminator.targets]

end Successors

section Lines

variable {b : Nat} {blk : Block} {t : Terminator}

theorem map_source_lines : (blk.lines b).map (·.source) = blk.sources := by
  rw [Block.lines, List.map_append, List.map_map, List.map_map]
  rfl

theorem filter_lines (h : f.blocks[b]? = some blk) :
    f.lines.filter (·.block = b) = blk.lines b := by
  simpa [Func.lines] using filter_linesFrom (b := 0) h

theorem block_lt_of_mem_lines {l : Line} (h : l ∈ f.lines) : l.block < f.blocks.length := by
  simpa using (block_bounds h).2

/-- The terminator of a block has a line. -/
theorem exists_line_iff :
    (∃ l ∈ f.lines, l.block = b ∧ l.source = .inr t) ↔ f.blocks[b]?.bind (·.term) = some t := by
  constructor
  · rintro ⟨l, hl, hb, hsource⟩
    have hlt := block_lt_of_mem_lines hl
    rw [hb] at hlt
    have hblk : f.blocks[b]? = some f.blocks[b] := List.getElem?_eq_getElem hlt
    have hmem : l ∈ f.lines.filter (·.block = b) := List.mem_filter.2 ⟨hl, by simpa using hb⟩
    rw [filter_lines hblk] at hmem
    rcases List.mem_append.1 hmem with hmem | hmem
    · obtain ⟨inst, -, rfl⟩ := List.mem_map.1 hmem
      cases hsource
    · obtain ⟨t', ht', rfl⟩ := List.mem_map.1 hmem
      cases hsource
      rw [hblk]
      exact Option.mem_toList.1 ht'
  · intro hterm
    obtain ⟨blk, hblk, hterm⟩ := Option.bind_eq_some_iff.1 hterm
    have hmem : t.line b blk.name.shown ∈ f.lines.filter (·.block = b) := by
      rw [filter_lines hblk]
      exact List.mem_append_right _ (List.mem_map_of_mem (Option.mem_toList.2 hterm))
    exact ⟨_, (List.mem_filter.1 hmem).1, rfl, rfl⟩

end Lines

section Pending

variable {lines : List Line}

theorem map_instr_pendingAfter : (pendingAfter lines).map (·.instr) = List.range lines.length := by
  rw [pendingAfter, List.map_map, List.range_eq_range']
  exact List.zipIdx_map_snd 0 lines

theorem map_source_filter_pendingAfter (b : Nat) :
    ((pendingAfter lines).filter (·.block = b)).map (·.source) =
      (lines.filter (·.block = b)).map (·.source) := by
  have hfst : lines = lines.zipIdx.map Prod.fst := by simp
  conv_rhs => rw [hfst]
  rw [pendingAfter, List.filter_map, List.filter_map, List.map_map, List.map_map]
  rfl

theorem mem_pendingAfter_lines (h : p ∈ pendingAfter lines) :
    ∃ l ∈ lines, l.block = p.block ∧ l.source = p.source := by
  obtain ⟨l, hl, rfl⟩ := List.mem_map.1 h
  exact ⟨l.1, List.fst_mem_of_mem_zipIdx hl, rfl, rfl⟩

theorem exists_mem_pendingAfter {l : Line} (h : l ∈ lines) :
    ∃ p ∈ pendingAfter lines, p.block = l.block ∧ p.source = l.source := by
  obtain ⟨i, hi, rfl⟩ := List.getElem_of_mem h
  have hmem : (lines[i], i) ∈ lines.zipIdx :=
    List.mem_zipIdx_iff_getElem?.2 (List.getElem?_eq_getElem hi)
  exact ⟨_, List.mem_map_of_mem hmem, rfl, rfl⟩

theorem pairwise_pendingAfter (h : lines.Pairwise (·.block ≤ ·.block)) :
    (pendingAfter lines).Pairwise (·.block ≤ ·.block) := by
  have hfst : lines.zipIdx.map Prod.fst = lines := by simp
  rw [← hfst, List.pairwise_map] at h
  exact List.pairwise_map.2 h

end Pending

/-! ### What both passes leave -/

section Body

variable {f₀ : Codegen.Func} {types : TypeTable} {params : List (Name × ValueId)} {b : BlockId}
  {i : InstrId}

/-- The state after the first pass. -/
def declared (f : Func) (f₀ : Codegen.Func) (types : TypeTable) : Importer :=
  ⟨types, f₀.outline (f.blocks.map (·.name.shown)) f.lines.length⟩

/-- The scope after the first pass. -/
def declaredScope (f : Func) (f₀ : Codegen.Func) (params : List (Name × ValueId)) : Scope :=
  scopeAfter params f₀.values.size (f.blocks.map (·.name)) f.lines

theorem importBody_eq_ok {out out' : Codegen.Module} {title : String} {sig : TypeId}
    (hnew : out.addFunc title sig = .ok (f₀, out'))
    (h : importBody m f params ⟨types, f₀⟩ = .ok () s') :
    (∀ blk ∈ f.blocks, ∃ t, blk.term = some t) ∧
      Completed m (declaredScope f f₀ params) (declared f f₀ types) (pendingAfter f.lines) s' := by
  obtain ⟨hblocks, hinstrs⟩ := Codegen.Func.new_blocks hnew
  obtain ⟨acc, s₁, hdeclare, h⟩ := EStateM.bind_eq_ok.1 h
  have hstart : (⟨types, f₀⟩ : Importer) = ⟨types, f₀.outline [] 0⟩ := by
    rw [Codegen.Func.outline_zero hblocks hinstrs]
  have hscope : ({ values := params } : Scope) = scopeAfter params f₀.values.size [] [] := by
    simp [scopeAfter]
  rw [hstart, hscope] at hdeclare
  obtain ⟨hterms, rfl, rfl⟩ := declareBlocks_eq_ok hdeclare
  refine ⟨hterms, ?_⟩
  have hinit : Completed m (declaredScope f f₀ params) (declared f f₀ types) []
      (declared f f₀ types) :=
    ⟨.refl _, .refl _, Codegen.Func.exists_traced_outline hnew _ _, by simp⟩
  rw [List.nil_append, List.nil_append, List.length_nil, List.map_map] at h
  exact hinit.run h

namespace Completed

variable
  (h : Completed m (declaredScope f f₀ params) (declared f f₀ types) (pendingAfter f.lines) s)
include h

theorem names_eq : s.func.names = f.blocks.map (·.name.shown) :=
  h.retains.names.trans Codegen.Func.names_outline

theorem size_blocks : s.func.blocks.size = f.blocks.length := by
  simpa [Codegen.Func.names] using congrArg List.length h.names_eq

/-- A block has the instructions that were made from its lines. -/
theorem instrsOf_eq : s.func.instrsOf b =
    ((pendingAfter f.lines).filter (·.block = b)).map (·.instr) := by
  obtain ⟨steps, hsteps, hlog⟩ := h.traced
  rw [hsteps.instrs, hlog, List.filter_map, List.map_map]
  rfl

theorem block_lt (hp : p ∈ pendingAfter f.lines) : p.block < s.func.blocks.size := by
  obtain ⟨l, hl, hblock, -⟩ := mem_pendingAfter_lines hp
  rw [h.size_blocks, ← hblock]
  exact block_lt_of_mem_lines hl

/-- The instructions are in the order of their numbers. -/
theorem inserted_eq : s.func.inserted = List.range f.lines.length := by
  have hparts : s.func.instrsOf = fun b =>
      ((pendingAfter f.lines).filter (·.block = b)).map (·.instr) := funext fun _ => h.instrsOf_eq
  have hsorted : (pendingAfter f.lines).Pairwise (·.block ≤ ·.block) :=
    pairwise_pendingAfter (pairwise_linesFrom 0 f.blocks)
  rw [Codegen.Func.inserted_eq_flatMap, hparts, ← List.map_flatMap, Codegen.Func.blockIds,
    flatMap_filter_key hsorted fun _ hp => h.block_lt hp]
  exact map_instr_pendingAfter

theorem result_eq (hi : i < f.lines.length) :
    s.func.instrs[i]?.map (·.result) = some (f₀.values.size + i) := by
  rw [h.retains.results, declared, Codegen.Func.getElem?_instrs_outline hi, Option.map_some]

/-- The names stand for the same before and after the second pass. -/
theorem scopeIn_eq (hparams : params = (f.params.map (·.name)).zip f₀.params) :
    f.scopeIn s.func = declaredScope f f₀ params := by
  have hargs : s.func.params = f₀.params := h.retains.params
  have hresults : (f.lines.zip s.func.inserted).filterMap (fun l =>
      l.1.result.bind fun n => s.func.instrs[l.2]?.map fun ins => (n, ins.result)) =
      f.lines.zipIdx.filterMap fun l => l.1.result.map (·, f₀.values.size + l.2) := by
    rw [h.inserted_eq, List.range_eq_range', ← List.zipIdx_eq_zip_range']
    refine List.filterMap_congr fun l hl => ?_
    have hlt := List.snd_lt_of_mem_zipIdx hl
    have hresult := h.result_eq (by simpa using hlt)
    obtain ⟨ins, hins, hresult⟩ := Option.map_eq_some_iff.1 hresult
    cases l.1.result <;> simp [hins, hresult]
  rw [Func.scopeIn, hresults, hargs, ← hparams]
  rfl

theorem blockImage {blk : Block} {c : Codegen.Block}
    (hterms : ∀ blk ∈ f.blocks, ∃ t, blk.term = some t)
    (hblk : f.blocks[b]? = some blk) (hc : s.func.blocks[b]? = some c) :
    BlockImage m (declaredScope f f₀ params) s blk c := by
  refine ⟨?_, hterms blk (List.mem_of_getElem? hblk), ?_⟩
  · have hname := congrArg (·[b]?) h.names_eq
    simpa [Codegen.Func.names, hblk, hc] using hname
  · have hsources : blk.sources = ((pendingAfter f.lines).filter (·.block = b)).map (·.source) := by
      rw [map_source_filter_pendingAfter, filter_lines hblk, map_source_lines]
    rw [← Codegen.Func.instrs_eq_instrsOf hc, h.instrsOf_eq, hsources, List.forall₂_map_left_iff,
      List.forall₂_map_right_iff, List.forall₂_same]
    exact fun p hp => h.ops p (List.mem_filter.1 hp).1

/-- Control goes from a block to another if the terminator says so. -/
theorem leadsTo_iff {c : BlockId} : f.leadsTo b c = true ↔
    ∃ p ∈ pendingAfter f.lines, p.block = b ∧ c ∈ s.func.successorsOf p.instr := by
  have hleads : f.leadsTo b c = true ↔ ∃ t, f.blocks[b]?.bind (·.term) = some t ∧
      ∃ n ∈ t.targets, f.blockNumbers.lookup n = some c := by
    simp [Func.leadsTo, Option.any_eq_true]
  rw [hleads]
  constructor
  · rintro ⟨t, hterm, htarget⟩
    obtain ⟨l, hl, rfl, hsource⟩ := exists_line_iff.2 hterm
    obtain ⟨p, hp, hblock, hpsource⟩ := exists_mem_pendingAfter hl
    obtain ⟨op, hop, himage⟩ := h.ops p hp
    rw [hpsource, hsource] at himage
    refine ⟨p, hp, hblock, ?_⟩
    rw [Codegen.Func.successorsOf, hop]
    exact (TermImage.mem_successors himage).2 htarget
  · rintro ⟨p, hp, rfl, hc⟩
    obtain ⟨op, hop, himage⟩ := h.ops p hp
    rw [Codegen.Func.successorsOf, hop] at hc
    obtain ⟨l, hl, hblock, hlsource⟩ := mem_pendingAfter_lines hp
    cases hsource : p.source with
    | inl source =>
      rw [hsource] at himage
      have hnone := OpImage.successors_eq himage
      simp [hnone] at hc
    | inr t =>
      rw [hsource] at himage
      refine ⟨t, exists_line_iff.1 ⟨l, hl, hblock, hlsource.trans hsource⟩, ?_⟩
      exact (TermImage.mem_successors himage).1 hc

/-- The predecessors of a block are in the order of the layout, each once. -/
theorem predsOf_eq (c : BlockId) :
    s.func.predsOf c = s.func.blockIds.filter (f.leadsTo · c) := by
  obtain ⟨steps, hsteps, hlog⟩ := h.traced
  have hsorted : (((pendingAfter f.lines).filter (c ∈ s.func.successorsOf ·.instr)).map
      (·.block)).Pairwise (· ≤ ·) :=
    List.pairwise_map.2 ((pairwise_pendingAfter (pairwise_linesFrom 0 f.blocks)).filter _)
  have hlt : ∀ b ∈ ((pendingAfter f.lines).filter (c ∈ s.func.successorsOf ·.instr)).map (·.block),
      b < s.func.blocks.size := by
    intro b hb
    obtain ⟨p, hp, rfl⟩ := List.mem_map.1 hb
    exact h.block_lt (List.mem_filter.1 hp).1
  have hpreds : s.func.predsOf c = (((pendingAfter f.lines).filter
      (c ∈ s.func.successorsOf ·.instr)).map (·.block)).eraseDups := by
    rw [hsteps.preds, hlog, List.filter_map, List.map_map]
    rfl
  rw [hpreds, eraseDups_eq_filter_range hsorted hlt, Codegen.Func.blockIds]
  refine List.filter_congr fun b _ => ?_
  rw [Bool.eq_iff_iff, h.leadsTo_iff, decide_eq_true_iff, List.mem_map]
  simp only [List.mem_filter, decide_eq_true_iff]
  constructor
  · rintro ⟨p, ⟨hp, hc⟩, rfl⟩
    exact ⟨p, hp, rfl, hc⟩
  · rintro ⟨p, hp, rfl, hc⟩
    exact ⟨p, ⟨hp, hc⟩, rfl⟩

end Completed

end Body

/-! ### Functions and modules -/

theorem signature_eq_ok {types : TypeTable} {id : TypeId} {signature : TypeTable.Signature}
    (h : types.signature id = .ok signature) :
    types.get? id = some (.function signature.result signature.params signature.variadic) := by
  simp only [TypeTable.signature, TypeTable.get, Except.bind_eq_ok] at h
  obtain ⟨ty, hty, h⟩ := h
  cases hget : types.get? id with
  | none => simp [hget] at hty
  | some ty' =>
    obtain rfl : ty' = ty := by simpa [hget] using hty
    cases ty' with
    | function result params variadic =>
      cases h
      rfl
    | _ => exact absurd h Except.throw_ne_ok

/-- What a function of a type starts with: an argument for each parameter of the type. -/
theorem addFunc_eq_ok {out out' : Codegen.Module} {g : Codegen.Func} {title : String} {sig : TypeId}
    (h : out.addFunc title sig = .ok (g, out')) :
    g.index = out.funcs.size ∧ g.name = title ∧ g.sig = sig ∧
      out' = { out with funcs := out.funcs.push g } ∧
      ∃ result ps variadic, out.types.get? sig = some (.function result ps variadic) ∧
        List.Forall₂ (fun t v => ∃ n, g.values[v]? = some (.arg n t)) ps g.params := by
  simp only [Codegen.Module.addFunc, Except.bind_eq_ok] at h
  obtain ⟨signature, hsignature, h⟩ := h
  obtain ⟨rfl, rfl⟩ := Prod.mk.inj (Except.pure_eq_ok.1 h)
  refine ⟨rfl, rfl, rfl, rfl, _, _, _, signature_eq_ok hsignature, ?_⟩
  refine List.forall₂_of_length_eq_of_get (by simp) fun n hn hn' => ⟨n, ?_⟩
  have hlt : n < signature.params.length := hn
  simp [hlt]

/-- The number of a type of functions, taken apart. -/
theorem TypeImage.of_func {types : TypeTable} {id result : TypeId} {ps : List TypeId}
    {variadic : Bool} (h : TypeImage m.types types f.type id)
    (hget : types.get? id = some (.function result ps variadic)) :
    List.Forall₂ (fun p t => TypeImage m.types types p.type t) f.params ps := by
  have hresolve : m.types.resolve f.type =
      .function f.result (f.params.map (·.type)) f.variadic := rfl
  cases h with
  | void ht | int ht | unknownPointer ht | pointer ht | array ht => cases hresolve.symm.trans ht
  | function ht _ hps hid =>
    cases hresolve.symm.trans ht
    cases hget.symm.trans hid
    exact List.forall₂_map_left_iff.1 hps

theorem FuncImage.mono {types types' : TypeTable} {g : Codegen.Func} (h : FuncImage m types f g)
    (hext : types.Extends types') : FuncImage m types' f g := by
  have hkeeps : (⟨types, g⟩ : Importer).Keeps ⟨types', g⟩ := ⟨hext, fun _ _ hx => hx⟩
  refine ⟨h.built, h.name, h.sig.mono hext, h.params.imp ?_, h.blocks.imp ?_, h.preds⟩
  · rintro p v ⟨n, t, hv, ht⟩
    exact ⟨n, t, hv, ht.mono hext⟩
  · intro blk c hblk
    refine ⟨hblk.name, hblk.term, hblk.code.imp ?_⟩
    rintro source i ⟨op, hop, himage⟩
    exact ⟨op, hop, lasting_sourceImage _ _ _ _ himage hkeeps⟩

/-- A function all of whose instructions were imported stands for the function. -/
theorem Completed.funcImage {out out' : Codegen.Module} {f₀ : Codegen.Func} {sig : TypeId}
    (h : Completed m (declaredScope f f₀ ((f.params.map (·.name)).zip f₀.params))
      (declared f f₀ out.types) (pendingAfter f.lines) s)
    (hnew : out.addFunc f.name.shown sig = .ok (f₀, out'))
    (hsig : TypeImage m.types out.types f.type sig)
    (hterms : ∀ blk ∈ f.blocks, ∃ t, blk.term = some t) : FuncImage m s.types f s.func := by
  obtain ⟨-, hname, hsigEq, -, result, ps, variadic, hget, hargs⟩ := addFunc_eq_ok hnew
  obtain ⟨steps, hsteps, -⟩ := h.traced
  have hext : out.types.Extends s.types := h.types
  refine ⟨hsteps.built, h.retains.name.trans hname, ?_, ?_, ?_, h.predsOf_eq⟩
  · have hsame : s.func.sig = sig := h.retains.sig.trans hsigEq
    rw [hsame]
    exact hsig.mono hext
  · have hparams : s.func.params = f₀.params := h.retains.params
    rw [hparams]
    refine (forall₂_trans (hsig.of_func hget) hargs).imp ?_
    rintro p v ⟨t, ht, n, hv⟩
    have hold : (f₀.outline (f.blocks.map (·.name.shown)) f.lines.length).values[v]? =
        some (.arg n t) := by
      have hlt : v < f₀.values.size := (Array.getElem?_eq_some_iff.1 hv).1
      simpa [Codegen.Func.outline, Array.getElem?_append, hlt] using hv
    exact ⟨n, t, h.retains.values v _ hold, ht.mono hext⟩
  · rw [h.scopeIn_eq rfl]
    have hlength : f.blocks.length = s.func.blocks.toList.length := by
      rw [Array.length_toList, h.size_blocks]
    refine List.forall₂_of_length_eq_of_get hlength fun b hb hb' => ?_
    exact h.blockImage hterms (List.getElem?_eq_getElem hb) (by simp)

/-- An imported function stands for the function. -/
theorem importFunc_eq_ok {out out' : Codegen.Module} (h : importFunc m out f = .ok out') :
    ∃ g, out'.funcs = out.funcs.push g ∧ out.types.Extends out'.types ∧
      FuncImage m out'.types f g := by
  rw [importFunc] at h
  split at h
  · cases h
  · next sig types hsig =>
    split at h
    · cases h
    · next f₀ out₁ hnew =>
      split at h
      · cases h
      · next s hbody =>
        cases h
        obtain ⟨hext, hsig⟩ := importType_eq_ok hsig
        obtain ⟨hindex, -, -, rfl, -⟩ := addFunc_eq_ok hnew
        obtain ⟨hterms, hdone⟩ := importBody_eq_ok hnew hbody
        refine ⟨s.func, ?_, hext.trans hdone.types, hdone.funcImage hnew hsig hterms⟩
        have hplace : s.func.index = out.funcs.size := hdone.retains.index.trans hindex
        apply Array.toList_inj.1
        simp [Codegen.Module.setFunc, hplace]

/-- A module is imported function by function. -/
theorem importModule_eq_ok {name : String} {out : Codegen.Module}
    (h : importModule m name = .ok out) :
    List.Forall₂ (FuncImage m out.types) m.funcs out.funcs.toList := by
  have hrun {fs done : List Func} {start : Codegen.Module}
      (hdone : List.Forall₂ (FuncImage m start.types) done start.funcs.toList)
      (hfs : fs.foldlM (importFunc m) start = .ok out) :
      List.Forall₂ (FuncImage m out.types) (done ++ fs) out.funcs.toList := by
    induction fs generalizing done start with
    | nil =>
      obtain rfl := Except.pure_eq_ok.1 hfs
      rwa [List.append_nil]
    | cons f fs ih =>
      rw [List.foldlM_cons, Except.bind_eq_ok] at hfs
      obtain ⟨next, hf, hfs⟩ := hfs
      obtain ⟨g, hfuncs, hext, himage⟩ := importFunc_eq_ok hf
      have hnext : List.Forall₂ (FuncImage m next.types) (done ++ [f]) next.funcs.toList := by
        rw [hfuncs, Array.toList_push]
        exact List.rel_append (hdone.imp fun _ _ hg => hg.mono hext) (.cons himage .nil)
      simpa using ih hnext hfs
  exact hrun .nil h

end Llvm

end Codegen
