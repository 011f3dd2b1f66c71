import Codegen.Proofs.Chaining
import Codegen.Proofs.Limits
import Codegen.Proofs.Progress

/-!
# The limit on nodes

A builder looks at the limit before it makes a node for the converter, but not before it makes the
root of a block. A node that is no root is therefore made only while there are fewer nodes than
allowed, and a graph is built under the limit just if it is built without one and all nodes too many
are roots. This takes blocks at the end of the function for which nothing but a root is made, such
as empty ones. If the last block has an instruction with an effect, then a node was made behind its
root, the last node of the graph is no root, and the limit bounds the graph. All functions that pass
the check are of this kind, since their blocks end with a terminator.

## Main definitions

* `Graph.outline`: the kinds and the blocks of the nodes.
* `Builder.nodeLimit`: the limit on the nodes of a function.
* `Builder.Adds`: steps that only make nodes of the current block that are no roots.

## Main results

* `Builder.governs_buildBlocks`: building under a limit.
* `Builder.outline_buildBlocks`: the nodes that are made last.
* `Builder.limit_spares_roots`: the graphs that are built under a limit.
-/

namespace Codegen

variable {ω : Type} {n : Nat}

/-! ### Blocks with effects -/

namespace Func

variable {f : Func} {is : List InstrId}

/-- Some of the instructions has an effect. -/
def Acts (f : Func) (is : List InstrId) : Prop :=
  ∃ i ∈ is, ∃ ins, f.instrs[i]? = some ins ∧ ins.hasEffects = true

theorem hasEffects_of_isTerminator {ins : Instr} (h : ins.isTerminator = true) :
    ins.hasEffects = true := by
  unfold Instr.isTerminator at h
  unfold Instr.hasEffects
  cases hop : ins.op with
  | none => simp [hop] at h
  | some op =>
    rw [hop] at h
    cases op <;> first | rfl | cases h

/-- The walk over a block finds a terminator at the end. -/
theorem acts_of_checkShape {blk : BlockId × Block} {phis : Bool} (hne : is ≠ [])
    (h : f.checkShape blk phis is = .ok ()) : f.Acts is := by
  induction is generalizing phis with
  | nil => exact absurd rfl hne
  | cons i is ih =>
    simp only [checkShape, Except.bind_eq_ok, liftFault_eq_ok, instr_eq_ok, ite_eq_iff,
      malformed_ne_ok, false_and, exists_false, and_false, false_or] at h
    obtain ⟨ins, hins, -, -, hlast, hrest⟩ := h
    by_cases hnil : is = []
    · refine ⟨i, List.mem_cons_self, ins, hins, hasEffects_of_isTerminator ?_⟩
      simpa [hnil] using hlast
    · obtain ⟨j, hj, hacts⟩ := ih hnil hrest
      exact ⟨j, List.mem_cons_of_mem _ hj, hacts⟩

/-- Every block of a function that passes the check has a terminator. -/
theorem acts_of_check {types : TypeTable} (h : f.check types = .ok ()) :
    ∀ blk ∈ f.layout, f.Acts blk.2.instrs := by
  intro blk hblk
  have hsize : f.isDeclaration = false := by
    have hlt : blk.1 < f.blocks.size := mem_map_fst_layout.1 (List.mem_map_of_mem hblk)
    simp only [isDeclaration, Array.isEmpty_eq_false_iff]
    rintro hempty
    simp [hempty] at hlt
  simp only [check, hsize, Bool.false_eq_true, if_false, Except.bind_eq_ok] at h
  obtain ⟨_, hblocks, -⟩ := h
  have hcheck := Except.forM_eq_ok.1 hblocks blk hblk
  simp only [checkBlock, ite_eq_iff, Except.bind_eq_ok, malformed_ne_ok, false_and, exists_false,
    and_false, false_or, List.isEmpty_iff] at hcheck
  exact acts_of_checkShape hcheck.1 hcheck.2

end Func

/-! ### The kinds of nodes -/

namespace Graph

variable {g g' : Graph ω}

/-- The kind and the block of each node. -/
def outline (g : Graph ω) : List (NodeKind × BlockId) :=
  g.nodes.toList.map fun node => (node.kind, node.block)

@[simp]
theorem length_outline (g : Graph ω) : g.outline.length = g.nodes.size := by
  simp [outline]

theorem mem_outline {k : NodeId} {node : Node ω} (h : g.nodes[k]? = some node) :
    (node.kind, node.block) ∈ g.outline :=
  List.mem_map_of_mem (Array.mem_def.1 (Array.mem_of_getElem? h))

/-- Putting a node on a chain changes neither its kind nor its block. -/
@[simp]
theorem outline_updateNode (g : Graph ω) (k : NodeId) (head : NodeRef) :
    (g.updateNode k ({ · with chain := head })).outline = g.outline := by
  refine List.ext_getElem? fun m => ?_
  simp only [outline, updateNode, List.getElem?_map, Array.getElem?_toList, Array.getElem?_modify]
  by_cases hkm : k = m
  · simp [if_pos hkm, Function.comp_def]
  · rw [if_neg hkm]

/-- All nodes but the first `n` are roots. -/
def RootsFrom (g : Graph ω) (n : Nat) : Prop := ∀ node ∈ g.nodes.toList.drop n, node.kind = .root

theorem rootsFrom_iff : g.RootsFrom n ↔ ∀ p ∈ g.outline.drop n, p.1 = .root := by
  rw [outline, ← List.map_drop, List.forall_mem_map]
  rfl

theorem rootsFrom_congr (h : g'.outline = g.outline) : g'.RootsFrom n ↔ g.RootsFrom n := by
  rw [rootsFrom_iff, rootsFrom_iff, h]

theorem RootsFrom.size_le (h : g.RootsFrom n) :
    g.nodes.size ≤ n + g.outline.countP (·.1 = .root) := by
  have hdrop : (g.outline.drop n).countP (·.1 = .root) = (g.outline.drop n).length :=
    List.countP_eq_length.2 fun p hp => by simpa using rootsFrom_iff.1 h p hp
  have hle := (List.drop_sublist n g.outline).countP_le (p := (·.1 = .root))
  rw [hdrop, List.length_drop, length_outline] at hle
  omega

/-- If the last node is no root, all nodes are among the first `n`. -/
theorem rootsFrom_iff_size_le {l : List (NodeKind × BlockId)} {p : NodeKind × BlockId}
    (h : g.outline = l ++ [p]) (hp : p.1 ≠ .root) : g.RootsFrom n ↔ g.nodes.size ≤ n := by
  rw [rootsFrom_iff, ← length_outline]
  refine ⟨fun hroots => ?_, fun hle q hq => ?_⟩
  · by_contra hlt
    refine hp (hroots p ?_)
    have hle : n ≤ l.length := by
      simp only [h, List.length_append, List.length_singleton] at hlt
      omega
    rw [h, List.drop_append_of_le_length hle]
    simp
  · simp [List.drop_eq_nil_of_le hle] at hq

end Graph

namespace Builder

variable {conv : Converter ω} {src : Source} {s s' t u : Builder ω} {b : BlockId} {i : InstrId}

@[simp]
theorem outline_added (s : Builder ω) (node : Node ω) :
    (s.added node).graph.outline = s.graph.outline ++ [(node.kind, node.block)] := by
  simp [added, Graph.outline]

/-! ### Making nodes under the limit -/

/-- At most `n` nodes, apart from roots that follow them. -/
def nodeLimit (n : Nat) : Limit Stop (Builder ω) where
  Free s := s.limit = 0
  impose s := { s with limit := n }
  Fits s := s.graph.RootsFrom n
  Exceeded e := ∃ places, e = .error ⟨.nodeLimit n, places⟩

theorem exceeded_within {e : Stop} (place : Place)
    (h : (nodeLimit n : Limit Stop (Builder ω)).Exceeded e) :
    (nodeLimit n : Limit Stop (Builder ω)).Exceeded (e.within place) := by
  obtain ⟨places, rfl⟩ := h
  exact ⟨place :: places, rfl⟩

theorem fits_added (s : Builder ω) (node : Node ω) :
    (nodeLimit n).Fits (s.added node) ↔
      (nodeLimit n).Fits s ∧ (n ≤ s.graph.nodes.size → node.kind = .root) := by
  change Graph.RootsFrom _ _ ↔ Graph.RootsFrom _ _ ∧ _
  rw [Graph.rootsFrom_iff, Graph.rootsFrom_iff, outline_added, List.drop_append,
    List.forall_mem_append, Graph.length_outline]
  refine and_congr_right fun _ => ?_
  by_cases hle : n ≤ s.graph.nodes.size
  · simp [Nat.sub_eq_zero_of_le hle, hle]
  · have hdrop : [(node.kind, node.block)].drop (n - s.graph.nodes.size) = [] :=
      List.drop_eq_nil_of_le (by simp; omega)
    simp [hdrop, hle]

theorem checkLimit_impose (hn : 0 < n) (s : Builder ω) :
    checkLimit ((nodeLimit n).impose s) = if n ≤ s.graph.nodes.size
      then .error (.ofCause (.nodeLimit n)) ((nodeLimit n).impose s)
      else .ok () ((nodeLimit n).impose s) := by
  change (if 0 < n ∧ n ≤ s.graph.nodes.size then _ else pure () : EStateM _ _ _) _ = _
  by_cases hle : n ≤ s.graph.nodes.size
  · rw [if_pos hle, if_pos ⟨hn, hle⟩]
    rfl
  · rw [if_neg hle, if_neg fun h => hle h.2]
    rfl

/-- Looking at the limit and then making a node that is no root. -/
theorem governs_checkLimit (hn : 0 < n) {x : Build ω NodeId}
    (hx : ∀ s : Builder ω, (∃ node, node.kind ≠ .root ∧
        ∀ limit, x { s with limit } = .ok s.graph.nodes.size ({ s with limit }.added node)) ∨
      ∃ e, ∀ limit, ∃ t, x { s with limit } = .error e t) :
    (nodeLimit n).Governs (checkLimit >>= fun _ => x) := by
  have hfree {s : Builder ω} (hs : (nodeLimit n).Free s) : (checkLimit >>= fun _ => x) s = x s := by
    simp only [bind, EStateM.bind, checkLimit_eq hs]
  have hstop {s : Builder ω} (hle : n ≤ s.graph.nodes.size) :
      (checkLimit >>= fun _ => x) ((nodeLimit n).impose s) =
        .error (.ofCause (.nodeLimit n)) ((nodeLimit n).impose s) := by
    simp only [bind, EStateM.bind, checkLimit_impose hn, if_pos hle]
  have hpass {s : Builder ω} (hlt : ¬n ≤ s.graph.nodes.size) :
      (checkLimit >>= fun _ => x) ((nodeLimit n).impose s) = x ((nodeLimit n).impose s) := by
    simp only [bind, EStateM.bind, checkLimit_impose hn, if_neg hlt]
  have hok {s t : Builder ω} {k : NodeId} (hs : (nodeLimit n).Free s)
      (h : (checkLimit >>= fun _ => x) s = .ok k t) : ∃ node, node.kind ≠ .root ∧
        t = s.added node ∧ x ((nodeLimit n).impose s) = .ok k ((nodeLimit n).impose t) := by
    rw [hfree hs] at h
    rcases hx s with ⟨node, hkind, hsame⟩ | ⟨e, hsame⟩
    · cases h.symm.trans (hsame s.limit)
      exact ⟨node, hkind, rfl, hsame n⟩
    · obtain ⟨t', hs'⟩ := hsame s.limit
      cases h.symm.trans hs'
  refine ⟨fun hs h => ?_, fun hs h ht => ?_, fun hs h ht => ?_, fun {s _ _} hs hfits h ht => ?_,
    fun {s _ _} hs _ h => ?_⟩
  · obtain ⟨node, -, rfl, -⟩ := hok hs h
    exact hs
  · obtain ⟨node, -, rfl, -⟩ := hok hs h
    exact ((fits_added _ _).1 ht).1
  · obtain ⟨node, hkind, rfl, hsame⟩ := hok hs h
    rw [hpass fun hle => hkind (((fits_added _ _).1 ht).2 hle), hsame]
  · obtain ⟨node, -, rfl, -⟩ := hok hs h
    have hle : n ≤ s.graph.nodes.size := by
      by_contra hlt
      exact ht ((fits_added _ _).2 ⟨hfits, fun hle => absurd hle hlt⟩)
    exact ⟨_, _, hstop hle, [], rfl⟩
  · rw [hfree hs] at h
    by_cases hle : n ≤ s.graph.nodes.size
    · exact ⟨_, _, hstop hle⟩
    · rcases hx s with ⟨node, -, hsame⟩ | ⟨e', hsame⟩
      · cases h.symm.trans (hsame s.limit)
      · obtain ⟨u, hu⟩ := hsame n
        exact ⟨e', u, (hpass hle).trans hu⟩

theorem kind_make_ne_root (b : BlockId) (payload : Payload ω) (args : List NodeRef) :
    (Node.make b payload args).kind ≠ .root := by
  cases payload <;> simp [Node.make, Payload.kind]

theorem governs_make (hn : 0 < n) (payload : Payload ω) (args : List NodeRef) :
    (nodeLimit n).Governs (make payload args) :=
  governs_checkLimit hn fun s =>
    .inl ⟨_, kind_make_ne_root s.current payload args, fun _ => rfl⟩

theorem governs_makeBlock (hn : 0 < n) (b : BlockId) :
    (nodeLimit n).Governs (makeBlock b : Build ω NodeId) := by
  refine governs_checkLimit hn fun s => ?_
  have hrun (limit : Nat) : (do
      let s ← get
      let label ← (s.context.label b : Except Stop Label)
      push (Node.make s.current (.block label b) []) : Build ω NodeId) { s with limit } =
        (liftM (s.context.label b : Except Stop Label) >>= fun label =>
          push (Node.make s.current (.block label b) []) : Build ω NodeId) { s with limit } := rfl
  cases hl : s.context.label b with
  | ok label =>
    refine .inl ⟨_, kind_make_ne_root s.current (.block label b) [], fun limit => ?_⟩
    rw [hrun, hl]
    rfl
  | error e =>
    refine .inr ⟨.fault e, fun limit => ⟨{ s with limit }, ?_⟩⟩
    rw [hrun, hl]
    rfl

theorem governs_makeLeaf (hn : 0 < n) (src : Source) (v : ValueId) :
    (nodeLimit n).Governs (makeLeaf src v : Build ω NodeId) :=
  Limit.governs_get_bind (fun _ => rfl) fun _ => (governs_lift _).bind fun _ => governs_make hn _ _

/-! ### Building under the limit -/

theorem governs_runConversion (hn : 0 < n) {α : Type} {visit : InstrId → Build ω NodeRef}
    (hvisit : ∀ i, (nodeLimit n).Governs (visit i)) (c : Conversion ω α) :
    (nodeLimit n).Governs (runConversion src visit c) := by
  induction c with
  | done a => exact Limit.governs_pure a
  | stop e => exact Limit.governs_throw e
  | inst op args next ih | imm x bits next ih | vreg r next ih | slot m next ih =>
    exact (governs_make hn _ _).bind ih
  | block b next ih => exact (governs_makeBlock hn b).bind ih
  | leaf v next ih => exact (governs_makeLeaf hn src v).bind ih
  | operand v next ih =>
    rw [runConversion]
    refine Limit.governs_get_bind (fun _ => rfl) fun s => (governs_lift _).bind fun p => ?_
    cases p with
    | some j => exact (hvisit j).bind ih
    | none => exact (governs_makeLeaf hn src v).bind fun m => ih (some m)

theorem governs_memoOf (i : InstrId) : (nodeLimit n).Governs (memoOf i : Build ω Memo) := by
  refine Limit.governs_get_bind (fun _ => rfl) fun s => ?_
  cases s.memo[i]? with
  | none => exact Limit.governs_throw _
  | some m => exact Limit.governs_pure m

theorem governs_remember (i : InstrId) (m : Memo) :
    (nodeLimit n).Governs (remember i m : Build ω Unit) :=
  Limit.governs_modify (fun _ => rfl) (fun _ h => h) fun _ => .rfl

theorem governs_convert (hn : 0 < n) (conv : Converter ω) (src : Source) (fuel : Nat)
    (i : InstrId) : (nodeLimit n).Governs (convert conv src fuel i) := by
  induction fuel generalizing i with
  | zero => exact Limit.governs_throw _
  | succ fuel ih =>
    refine (governs_memoOf i).bind fun m => ?_
    cases m with
    | converted r => exact Limit.governs_pure _
    | inProgress => exact Limit.governs_throw _
    | unseen =>
      refine (governs_remember i _).bind fun _ => Limit.governs_get_bind (fun _ => rfl) fun s => ?_
      exact (governs_runConversion hn ih _).bind fun r =>
        (governs_remember i _).bind fun _ => Limit.governs_pure _

/-- Whether a node is put on the chain does not depend on the limit. -/
theorem prepend_of_eq_ok {head r r' : NodeRef} (h : prepend i head r s = .ok r' s') (limit : Nat) :
    prepend i head r { s with limit } = .ok r' { s' with limit } := by
  obtain ⟨k, node, rfl, rfl, hk, hblock, hkind, hchain, hhead, rfl⟩ := prepend_accepts h
  exact prepend_eq hk hkind hblock hchain hhead

theorem governs_prepend (i : InstrId) (head r : NodeRef) :
    (nodeLimit n).Governs (prepend i head r : Build ω NodeRef) := by
  refine Limit.governs_of_same fun s => ?_
  cases h : prepend i head r s with
  | ok r' t =>
    obtain ⟨k, node, rfl, rfl, -, -, -, -, -, rfl⟩ := prepend_accepts h
    exact .inl ⟨_, _, rfl, prepend_of_eq_ok h n, id,
      Graph.rootsFrom_congr (Graph.outline_updateNode _ _ _)⟩
  | error e t =>
    cases h' : prepend i head r ((nodeLimit n).impose s) with
    | ok r' u => cases h.symm.trans (prepend_of_eq_ok h' s.limit)
    | error e' u => exact .inr ⟨e, e', t, u, rfl, rfl⟩

theorem governs_chainOf (i : InstrId) :
    (nodeLimit n).Governs (chainOf i : Build ω (List NodeRef)) :=
  (governs_memoOf i).bind fun m => by cases m <;> exact Limit.governs_pure _

theorem governs_buildInstr (hn : 0 < n) (conv : Converter ω) (src : Source) (tail : Tail)
    (i : InstrId) : (nodeLimit n).Governs (buildInstr conv src tail i) := by
  refine (governs_convert hn conv src _ i).bind fun _ => (governs_chainOf i).bind fun chain =>
    (governs_lift _).bind fun ins => .ite ((Limit.governs_throw _).bind fun _ => ?_) ?_
  all_goals
    exact (Limit.Governs.foldlM (governs_prepend i) _ _).bind fun head =>
      .ite (Limit.governs_pure _) (Limit.governs_pure _)

/-- The root of a block is made whatever the limit is. -/
theorem governs_push_root (b : BlockId) :
    (nodeLimit n).Governs (push (Node.root b) : Build ω NodeId) :=
  Limit.governs_of_same fun s =>
    .inl ⟨s.graph.nodes.size, s.added (Node.root b), rfl, rfl, id, by simp [fits_added, Node.root]⟩

theorem governs_buildBlock (hn : 0 < n) (conv : Converter ω) (src : Source) (b : BlockId)
    (blk : Block) : (nodeLimit n).Governs (buildBlock conv src b blk) := by
  refine .bind (Limit.governs_modify (fun _ => rfl) (fun _ h => h) fun _ => .rfl) fun _ =>
    (governs_push_root b).bind fun root => ?_
  refine .bind (Limit.governs_modify (fun _ => rfl) (fun _ h => h) fun _ => .rfl) fun _ => ?_
  exact (Limit.Governs.foldlM (governs_buildInstr hn conv src) _ _).bind fun tail =>
    Limit.governs_modify (fun _ => rfl) (fun _ h => h) fun s =>
      Graph.rootsFrom_congr (Graph.outline_updateNode _ _ _)

theorem governs_buildBlocks (hn : 0 < n) (conv : Converter ω) (src : Source)
    (blks : List (BlockId × Block)) : (nodeLimit n).Governs (buildBlocks conv src blks) := by
  induction blks with
  | nil => exact Limit.governs_pure _
  | cons blk blks ih =>
    exact ((governs_buildBlock hn conv src _ _).atPlace _ fun _ => exceeded_within _).bind
      fun _ => ih

/-! ### The nodes of a block -/

/-- Only nodes of the current block that are no roots were made. -/
def Adds (s s' : Builder ω) : Prop :=
  s'.current = s.current ∧ ∃ l, s'.graph.outline = s.graph.outline ++ l ∧
    ∀ p ∈ l, p.1 ≠ .root ∧ p.2 = s.current

theorem Adds.refl (s : Builder ω) : s.Adds s := ⟨rfl, [], by simp⟩

theorem Adds.trans (h : s.Adds t) (h' : t.Adds u) : s.Adds u := by
  obtain ⟨hcurrent, l, hl, hnew⟩ := h
  obtain ⟨hcurrent', l', hl', hnew'⟩ := h'
  refine ⟨hcurrent'.trans hcurrent, l ++ l', by rw [hl', hl, List.append_assoc], ?_⟩
  rw [List.forall_mem_append]
  exact ⟨hnew, fun p hp => hcurrent ▸ hnew' p hp⟩

theorem Adds.mem_outline {p : NodeKind × BlockId} (h : s.Adds t) (hp : p ∈ s.graph.outline) :
    p ∈ t.graph.outline := by
  obtain ⟨-, l, hl, -⟩ := h
  rw [hl]
  exact List.mem_append_left _ hp

theorem adds_added (s : Builder ω) (payload : Payload ω) (args : List NodeRef) :
    s.Adds (s.added (Node.make s.current payload args)) :=
  ⟨rfl, _, outline_added _ _,
    List.forall_mem_singleton.2 ⟨kind_make_ne_root s.current payload args, rfl⟩⟩

theorem adds_convert (fuel : Nat) {r : NodeRef} (h : convert conv src fuel i s = .ok r s') :
    s.Adds s' := by
  induction fuel generalizing i s r s' with
  | zero => exact absurd h EStateM.throw_ne_ok
  | succ fuel ih =>
    rcases convert_eq_ok h with ⟨result, -, -, rfl⟩ | ⟨result, t, -, hrun, -, rfl⟩
    · exact .refl s'
    · -- What is remembered is no part of the graph.
      have hadds : (s.remembered i .inProgress).Adds t :=
        run_induction Adds.refl Adds.trans adds_added (fun hv => ih hv) hrun
      exact hadds

/-- Nodes can only be put on the chain if they are operations of the current block. -/
theorem outline_foldlM_prepend {l : List NodeRef} {head head' : NodeRef}
    (h : l.foldlM (prepend i) head s = .ok head' s') :
    (s'.current = s.current ∧ s'.graph.outline = s.graph.outline) ∧
      (l ≠ [] → (.inst, s.current) ∈ s.graph.outline) := by
  induction l generalizing head s with
  | nil =>
    obtain ⟨-, rfl⟩ := EStateM.pure_eq_ok.1 h
    exact ⟨⟨rfl, rfl⟩, fun hne => absurd rfl hne⟩
  | cons r l ih =>
    rw [List.foldlM_cons, EStateM.bind_eq_ok] at h
    obtain ⟨head₁, t, hr, hrest⟩ := h
    obtain ⟨k, node, rfl, rfl, hk, hblock, hkind, -, -, rfl⟩ := prepend_accepts hr
    obtain ⟨⟨hcurrent, houtline⟩, -⟩ := ih hrest
    have hmem := Graph.mem_outline hk
    rw [hkind, hblock] at hmem
    exact ⟨⟨hcurrent, houtline.trans (Graph.outline_updateNode _ _ _)⟩, fun _ => hmem⟩

/-- An instruction with effects leaves an operation of the block in the graph. -/
theorem adds_buildInstr {tail tail' : Tail} (h : buildInstr conv src tail i s = .ok tail' s') :
    s.Adds s' ∧ ((∃ ins, src.func.instrs[i]? = some ins ∧ ins.hasEffects = true) →
      (.inst, s.current) ∈ s'.graph.outline) := by
  obtain ⟨r, s₁, chain, s₂, ins, hconvert, hchain, hins, heffects, hfold, -⟩ := buildInstr_eq_ok h
  obtain ⟨-, result, hm⟩ := returned_convert (fun _ => True) _ hconvert
  obtain ⟨rfl, rfl⟩ := chainOf_eq_ok hm hchain
  have hadds := adds_convert _ hconvert
  obtain ⟨⟨hcurrent, houtline⟩, hmem⟩ := outline_foldlM_prepend hfold
  have hchained : s₂.Adds s' := ⟨hcurrent, [], by simp [houtline]⟩
  refine ⟨hadds.trans hchained, ?_⟩
  rintro ⟨ins', hins', heff⟩
  obtain rfl := Option.some.inj (hins.symm.trans hins')
  have hne : result.chain.reverse ≠ [] := by
    rw [heff] at heffects
    simpa using heffects
  rw [houtline, ← hadds.1]
  exact hmem hne

theorem adds_buildInstrs {is : List InstrId} {tail tail' : Tail}
    (h : is.foldlM (buildInstr conv src) tail s = .ok tail' s') :
    s.Adds s' ∧ (src.func.Acts is → (.inst, s.current) ∈ s'.graph.outline) := by
  induction is generalizing tail s with
  | nil =>
    obtain ⟨-, rfl⟩ := EStateM.pure_eq_ok.1 h
    exact ⟨.refl s, fun ⟨_, hi, _⟩ => absurd hi List.not_mem_nil⟩
  | cons i is ih =>
    rw [List.foldlM_cons, EStateM.bind_eq_ok] at h
    obtain ⟨tail₁, t, hi, hrest⟩ := h
    obtain ⟨hadds, hmem⟩ := adds_buildInstr hi
    obtain ⟨hadds', hmem'⟩ := ih hrest
    refine ⟨hadds.trans hadds', ?_⟩
    rintro ⟨j, hj, hacts⟩
    rcases List.mem_cons.1 hj with rfl | hj
    · exact hadds'.mem_outline (hmem hacts)
    · exact hadds.1 ▸ hmem' ⟨j, hj, hacts⟩

/-- Building a block makes its root and then nodes of the block that are no roots, one at least if
the block has an effect. -/
theorem outline_buildBlock {blk : Block} (h : buildBlock conv src b blk s = .ok () s') :
    ∃ l, s'.graph.outline = s.graph.outline ++ (.root, b) :: l ∧
      (∀ p ∈ l, p.1 ≠ .root ∧ p.2 = b) ∧
      (src.func.Acts blk.instrs → (.inst, b) ∈ s'.graph.outline) := by
  obtain ⟨tail, t, hfold, rfl⟩ := buildBlock_eq_ok.1 h
  obtain ⟨⟨-, l, hl, hnew⟩, hmem⟩ := adds_buildInstrs hfold
  have hclosed : (t.closed b s.graph.nodes.size tail).graph.outline = t.graph.outline :=
    Graph.outline_updateNode _ _ _
  have hopened : (s.opened b).graph.outline = s.graph.outline ++ [(.root, b)] :=
    outline_added _ _
  refine ⟨l, by rw [hclosed, hl, hopened, List.append_assoc, List.singleton_append], hnew, ?_⟩
  rintro ⟨i, hi, hacts⟩
  rw [hclosed]
  exact hmem ⟨i, List.mem_reverse.2 hi, hacts⟩

/-- There is one root for each block. -/
theorem countP_outline_buildBlocks {blks : List (BlockId × Block)}
    (h : buildBlocks conv src blks s = .ok () s') :
    s'.graph.outline.countP (·.1 = .root) =
      s.graph.outline.countP (·.1 = .root) + blks.length := by
  induction blks generalizing s with
  | nil =>
    obtain ⟨-, rfl⟩ := EStateM.pure_eq_ok.1 h
    rfl
  | cons blk blks ih =>
    obtain ⟨_, t, hblk, hrest⟩ := EStateM.bind_eq_ok.1 h
    obtain ⟨l, hl, hnew, -⟩ := outline_buildBlock (atPlace_eq_ok.1 hblk)
    have hcount : l.countP (·.1 = .root) = 0 := by
      simp only [List.countP_eq_zero, decide_eq_true_eq]
      exact fun p hp => (hnew p hp).1
    rw [ih hrest, hl, List.countP_append, List.countP_cons_of_pos (by simp), hcount,
      List.length_cons]
    omega

/-- If the last block has an effect, the last node is no root. -/
theorem outline_buildBlocks {blks : List (BlockId × Block)} (hne : blks ≠ [])
    (hnodup : (blks.map Prod.fst).Nodup)
    (hacts : src.func.Acts (blks.getLast hne).2.instrs)
    (hnew : ∀ p ∈ s.graph.outline, p.2 ∉ blks.map Prod.fst)
    (h : buildBlocks conv src blks s = .ok () s') :
    ∃ l p, s'.graph.outline = l ++ [p] ∧ p.1 ≠ .root := by
  induction blks generalizing s with
  | nil => exact absurd rfl hne
  | cons blk blks ih =>
    obtain ⟨_, t, hblk, hrest⟩ := EStateM.bind_eq_ok.1 h
    obtain ⟨l, hl, hothers, hmem⟩ := outline_buildBlock (atPlace_eq_ok.1 hblk)
    obtain ⟨hfresh, hnodup⟩ := List.nodup_cons.1 hnodup
    by_cases hnil : blks = []
    · -- The operation is not among the nodes before the block, and it is not the root.
      subst hnil
      obtain ⟨-, rfl⟩ := EStateM.pure_eq_ok.1 hrest
      have hinst : (.inst, blk.1) ∈ l := by
        have := hmem hacts
        rw [hl, List.mem_append, List.mem_cons] at this
        rcases this with hold | hroot | hin
        · exact absurd List.mem_cons_self (hnew _ hold)
        · cases hroot
        · exact hin
      have hsome := List.ne_nil_of_mem hinst
      refine ⟨s.graph.outline ++ (.root, blk.1) :: l.dropLast, l.getLast hsome, ?_,
        (hothers _ (List.getLast_mem hsome)).1⟩
      rw [List.append_assoc, List.cons_append, List.dropLast_append_getLast, hl]
    · refine ih hnil hnodup ?_ (fun p hp => ?_) hrest
      · rwa [List.getLast_cons hnil] at hacts
      · rw [hl, List.mem_append, List.mem_cons] at hp
        rcases hp with hold | rfl | hin
        · exact fun hp => hnew p hold (List.mem_cons_of_mem _ hp)
        · exact hfresh
        · exact (hothers p hin).2 ▸ hfresh

/-! ### Functions -/

/-- Builds the blocks of a function with a builder that was set up for it. -/
def buildLayout (conv : Converter ω) (src : Source) : Build ω (Graph ω) := do
  buildBlocks conv src src.func.layout
  return (← get).graph

/-- What a builder with a limit makes of a function is made of the blocks by a builder that was set
up for it. -/
theorem outcome_build_setLimit (conv : Converter ω) (src : Source) (s : Builder ω) (n : Nat) :
    EStateM.outcome (build conv src) (s.perform conv (.setLimit n)) =
      match Context.ofFunc src.func with
      | .error e => .error (.fault e)
      | .ok context => match emptyGraph src.func context with
        | .error e => .error (.fault e)
        | .ok graph =>
          EStateM.outcome (buildLayout conv src) {
            context
            graph
            memo := Array.replicate src.func.instrs.size .unseen
            limit := n } := by
  have hgraph : buildGraph conv src = start src >>= fun _ => buildLayout conv src := rfl
  rw [outcome_build_eq, hgraph]
  cases hc : Context.ofFunc src.func with
  | error e => simp only [EStateM.outcome, bind, EStateM.bind, start_eq, hc]
  | ok context =>
    cases hg : (emptyGraph src.func context : Except Fault (Graph ω)) with
    | error e => simp only [EStateM.outcome, bind, EStateM.bind, start_eq, hc, hg]
    | ok graph =>
      simp only [hg]
      rw [buildLayout, ← outcome_blocks _ _ s.current]
      simp only [EStateM.outcome, bind, EStateM.bind, start_eq, hc, hg]
      rfl

/-- How far the graph of a function can be beyond the limit. -/
theorem size_le_of_buildBlocks (hs : s.graph.nodes = #[])
    (h : buildBlocks conv src src.func.layout s = .ok () t) (hroots : t.graph.RootsFrom n) :
    t.graph.nodes.size ≤ n + src.func.blocks.size := by
  have hnone : s.graph.outline = [] := by simp [Graph.outline, hs]
  have hlength : src.func.layout.length = src.func.blocks.size := by
    rw [← List.length_map Prod.fst, Func.map_fst_layout, Func.blockIds, List.length_range]
  have hle := hroots.size_le
  rw [countP_outline_buildBlocks h, hnone, hlength, List.countP_nil, Nat.zero_add] at hle
  exact hle

/-- The graph of a function that passes the check does not end with a root. -/
theorem rootsFrom_iff_of_check (hs : s.graph.nodes = #[])
    (h : buildBlocks conv src src.func.layout s = .ok () t)
    (hcheck : src.func.check src.types = .ok ()) :
    t.graph.RootsFrom n ↔ t.graph.nodes.size ≤ n := by
  by_cases hne : src.func.layout = []
  · rw [hne] at h
    obtain ⟨-, rfl⟩ := EStateM.pure_eq_ok.1 h
    simp [Graph.RootsFrom, hs]
  · have hacts := Func.acts_of_check hcheck _ (List.getLast_mem hne)
    obtain ⟨l, p, hl, hp⟩ := outline_buildBlocks hne (Func.nodup_map_fst_layout _) hacts
      (by simp [Graph.outline, hs]) h
    exact Graph.rootsFrom_iff_size_le hl hp

theorem governs_buildLayout (hn : 0 < n) (conv : Converter ω) (src : Source) :
    (nodeLimit n).Governs (buildLayout conv src) :=
  (governs_buildBlocks hn conv src _).bind fun _ =>
    Limit.governs_get_bind (fun _ => rfl) fun _ => Limit.governs_pure _

theorem buildLayout_eq_ok {g : Graph ω} (h : buildLayout conv src s = .ok g t) :
    buildBlocks conv src src.func.layout s = .ok () t ∧ t.graph = g := by
  simp only [buildLayout, EStateM.bind_eq_ok, EStateM.get_eq_ok, EStateM.pure_eq_ok] at h
  obtain ⟨_, _, hbuild, _, _, ⟨rfl, rfl⟩, rfl, rfl⟩ := h
  exact ⟨hbuild, rfl⟩

/-- The graph of a function under a limit of `n` nodes is the graph without a limit, if all its
nodes but the first `n` are roots, and otherwise building it stops with the error of the limit. At
most as many nodes as there are blocks are beyond the limit, and none if the function passes the
check. -/
theorem limit_spares_roots (conv : Converter ω) (src : Source) (s : Builder ω) (hn : 1 ≤ n) :
    (∀ g, EStateM.outcome (build conv src) (s.perform conv (.setLimit n)) = .ok g ↔
      EStateM.outcome (build conv src) (s.perform conv (.setLimit 0)) = .ok g ∧
        g.RootsFrom n) ∧
    (∀ g, EStateM.outcome (build conv src) (s.perform conv (.setLimit 0)) = .ok g →
      ¬g.RootsFrom n → ∃ places,
        EStateM.outcome (build conv src) (s.perform conv (.setLimit n)) =
          .error (.error ⟨.nodeLimit n, places⟩)) ∧
    (∀ g, EStateM.outcome (build conv src) (s.perform conv (.setLimit n)) = .ok g →
      g.nodes.size ≤ n + src.func.blocks.size) ∧
    (src.func.check src.types = .ok () → ∀ g,
      EStateM.outcome (build conv src) (s.perform conv (.setLimit n)) = .ok g ↔
        EStateM.outcome (build conv src) (s.perform conv (.setLimit 0)) = .ok g ∧
          g.nodes.size ≤ n) := by
  simp only [outcome_build_setLimit]
  cases Context.ofFunc src.func with
  | error e => simp
  | ok c =>
    simp only
    cases hg : (emptyGraph src.func c : Except Fault (Graph ω)) with
    | error e => simp
    | ok graph =>
      have hempty : graph.nodes = #[] := (emptyGraph_eq_ok hg).2.2.1
      have hgoverns := governs_buildLayout hn conv src
      let s₀ : Builder ω :=
        { context := c, graph, memo := Array.replicate src.func.instrs.size .unseen }
      have hfree : (nodeLimit n).Free s₀ := rfl
      have hfits : (nodeLimit n).Fits s₀ := by simp [nodeLimit, s₀, Graph.RootsFrom, hempty]
      refine ⟨fun g => ?_, fun g h hroots => ?_, fun g h => ?_, fun hcheck g => ?_⟩
      · refine (hgoverns.outcome_eq_ok hfree hfits).trans ?_
        simp only [EStateM.outcome_eq_ok, ← exists_and_right]
        exact exists_congr fun t => and_congr_right fun ht => by
          rw [← (buildLayout_eq_ok ht).2]
          rfl
      · obtain ⟨t, ht⟩ := EStateM.outcome_eq_ok.1 h
        rw [← (buildLayout_eq_ok ht).2] at hroots
        obtain ⟨e, he, places, rfl⟩ := hgoverns.outcome_of_exceeds hfree hfits ht hroots
        exact ⟨places, he⟩
      · obtain ⟨t, ht, hroots⟩ := (hgoverns.outcome_eq_ok hfree hfits).1 h
        obtain ⟨hbuild, rfl⟩ := buildLayout_eq_ok ht
        exact size_le_of_buildBlocks hempty hbuild hroots
      · refine (hgoverns.outcome_eq_ok hfree hfits).trans ?_
        simp only [EStateM.outcome_eq_ok, ← exists_and_right]
        exact exists_congr fun t => and_congr_right fun ht => by
          obtain ⟨hbuild, rfl⟩ := buildLayout_eq_ok ht
          exact rootsFrom_iff_of_check hempty hbuild hcheck

/-- A function with two empty blocks. -/
def emptyBlocks : Source :=
  ⟨Func.sampleTypes, (Func.sampleStart.assemble [] [[], []]).getD Func.sampleStart⟩

/-- A function whose last block has nothing but a branch. -/
def branchLast : Source := ⟨Func.sampleTypes, Func.sample⟩

/-- Two roots are made under a limit of one node. A function that passes the check is built under
the limit that it just keeps, and not under one that is too small by one. -/
theorem limit_spares_roots_samples :
    (∃ g : Graph X86.Opcode, g.nodes.size = 2 ∧
      EStateM.outcome (build X86.converter emptyBlocks) (perform X86.converter {} (.setLimit 1)) =
        .ok g) ∧
    branchLast.func.check branchLast.types = .ok () ∧
    ∃ g : Graph X86.Opcode, g.nodes.size = 39 ∧
      EStateM.outcome (build X86.converter branchLast)
        (perform X86.converter {} (.setLimit 39)) = .ok g ∧
      ∀ g : Graph X86.Opcode, EStateM.outcome (build X86.converter branchLast)
        (perform X86.converter {} (.setLimit 38)) ≠ .ok g := by
  have hempty : EStateM.gives
      (fun g => g.nodes.size == 2 && (g.nodes.toList.drop 1).all (·.kind == .root))
      (build X86.converter emptyBlocks (perform X86.converter {} (.setLimit 0))) = true := by
    decide +kernel
  have hsample : EStateM.gives (fun g => g.nodes.size == 39)
      (build X86.converter branchLast
        (perform X86.converter {} (.setLimit 0))) = true := by
    decide +kernel
  have hcheck : branchLast.func.check branchLast.types = .ok () := by decide +kernel
  obtain ⟨g, t, hg, hroots⟩ := EStateM.eq_ok_of_gives hempty
  obtain ⟨g', t', hg', hsize⟩ := EStateM.eq_ok_of_gives hsample
  have hsize : g'.nodes.size = 39 := eq_of_beq hsize
  simp only [Bool.and_eq_true, beq_iff_eq, List.all_eq_true] at hroots
  have hfree := EStateM.outcome_eq_ok.2 ⟨t', hg'⟩
  have hexact {n : Nat} (hn : 1 ≤ n) :=
    (limit_spares_roots X86.converter branchLast {} hn).2.2.2 hcheck
  refine ⟨⟨g, hroots.1, ?_⟩, hcheck, g', hsize, ?_, fun g'' h => ?_⟩
  · exact ((limit_spares_roots X86.converter emptyBlocks {} (by decide)).1 g).2
      ⟨EStateM.outcome_eq_ok.2 ⟨t, hg⟩, hroots.2⟩
  · exact (hexact (by decide) g').2 ⟨hfree, hsize.le⟩
  · obtain ⟨h, hle⟩ := (hexact (by decide) g'').1 h
    obtain rfl := Except.ok.inj (h.symm.trans hfree)
    omega

end Builder

end Codegen
