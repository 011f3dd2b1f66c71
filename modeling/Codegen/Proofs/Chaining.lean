import Codegen.Graph.Recipe
import Codegen.Proofs.Drawing

/-!
# What any converter puts on the chains

A converter may ask for any nodes and give back any list of nodes to be chained. A builder puts them
in front of the chain of the block, one after the other, if they are operations of the block that
have no node behind them and do not start the chain. The last node of a chain has no node behind it
either. If it is put on the chain once more, with other nodes in between, the builder takes it, and
from then on the chain goes round. A node can be repeated in no other way, so that a chain passes
through the lists that the converter gave back, in program order, or it never ends.

## Main definitions

* `Graph.Leads`: the nodes on a piece of a chain.
* `Graph.Strung`: what can become of a chain on which nodes are put.
* `Builder.Returned`: what the converter gave back for an instruction.

## Main results

* `Graph.Leads.chainFrom_eq_error`: a chain that goes round does not end.
* `Builder.strung_prepend`: one more node on a chain.
* `Builder.returned_convert`: what is remembered of an instruction is what the converter gave back.
* `Builder.build_chains_or_turns`: the chain of a block of a graph that was built.
-/

namespace Codegen

variable {ω : Type}

/-! ### Pieces of a chain -/

namespace Graph

variable {g g' : Graph ω} {b : BlockId} {e r : NodeRef} {n : NodeId} {node : Node ω}
  {l : List NodeId}

/-- The chain leads from a reference through operations of block `b` to the reference `e`. -/
def Leads (g : Graph ω) (b : BlockId) (e : NodeRef) : NodeRef → List NodeId → Prop
  | r, [] => r = e
  | r, n :: l => r = some n ∧ ∃ node, g.nodes[n]? = some node ∧ node.block = b ∧
    node.kind = .inst ∧ Leads g b e node.chain l

/-- The chain from `r` on after nodes were put in front of it. It passes through these nodes and
ends, or the last node was put on it again and is where it goes round. -/
inductive Strung (g : Graph ω) (b : BlockId) (r : NodeRef) : List NodeId → Prop
  | ends {l : List NodeId} (h : g.Leads b none r l) (hnodup : l.Nodup) : Strung g b r l
  | turns {before between : List NodeId} {n : NodeId}
      (h : g.Leads b (some n) r (before ++ n :: between))
      (hnodup : (before ++ n :: between).Nodup) (hne : between ≠ []) :
      Strung g b r (before ++ n :: between ++ [n])

theorem Leads.congr (h : g.Leads b e r l) (hg : ∀ n ∈ l, ∀ node, g.nodes[n]? = some node →
    node.block = b → g'.nodes[n]? = some node) : g'.Leads b e r l := by
  induction l generalizing r with
  | nil => exact h
  | cons n l ih =>
    obtain ⟨hr, node, hn, hb, hkind, hl⟩ := h
    obtain ⟨hgn, hg⟩ := List.forall_mem_cons.1 hg
    exact ⟨hr, node, hgn node hn hb, hb, hkind, ih hl hg⟩

theorem Leads.linked (h : g.Leads b none r l) : g.Linked b r l := by
  induction l generalizing r with
  | nil => exact h
  | cons n l ih =>
    obtain ⟨hr, node, hn, hb, -, hl⟩ := h
    exact ⟨hr, node, hn, hb, ih hl⟩

theorem Leads.kind (h : g.Leads b e r l) (hn : n ∈ l) :
    ∃ node, g.nodes[n]? = some node ∧ node.kind = .inst := by
  induction l generalizing r with
  | nil => cases hn
  | cons m l ih =>
    obtain ⟨-, node, hm, -, hkind, hl⟩ := h
    rcases List.mem_cons.1 hn with rfl | hn
    · exact ⟨node, hm, hkind⟩
    · exact ih hl hn

/-- Behind a node there is another one, or the end. -/
theorem Leads.chain_cases (h : g.Leads b e r l) (hn : n ∈ l) (hnode : g.nodes[n]? = some node) :
    node.chain = e ∨ ∃ m ∈ l, node.chain = some m := by
  induction l generalizing r with
  | nil => cases hn
  | cons m l ih =>
    obtain ⟨-, node', hm, -, -, hl⟩ := h
    by_cases hmem : n ∈ l
    · rcases ih hl hmem with hend | ⟨k, hk, hchain⟩
      · exact .inl hend
      · exact .inr ⟨k, List.mem_cons_of_mem _ hk, hchain⟩
    · obtain rfl := (List.mem_cons.1 hn).resolve_right hmem
      obtain rfl := Option.some.inj (hnode.symm.trans hm)
      cases l with
      | nil => exact .inl hl
      | cons k l => exact .inr ⟨k, by simp, hl.1⟩

/-- A node with none behind it is the last one. -/
theorem Leads.eq_append (h : g.Leads b none r l) (hn : n ∈ l) (hnode : g.nodes[n]? = some node)
    (hchain : node.chain = none) : ∃ init, l = init ++ [n] ∧ g.Leads b (some n) r init := by
  induction l generalizing r with
  | nil => cases hn
  | cons m l ih =>
    obtain ⟨rfl, node', hm, hb, hkind, hl⟩ := h
    by_cases hmn : m = n
    · subst hmn
      obtain rfl := Option.some.inj (hnode.symm.trans hm)
      rw [hchain] at hl
      cases l with
      | nil => exact ⟨[], rfl, rfl⟩
      | cons k l => cases hl.1
    · obtain ⟨init, rfl, hinit⟩ := ih hl ((List.mem_cons.1 hn).resolve_left (Ne.symm hmn))
      exact ⟨m :: init, rfl, rfl, node', hm, hb, hkind, hinit⟩

/-- A chain that leads back to one of its own nodes does not end. -/
theorem Leads.chainFrom_eq_error (h : g.Leads b (some n) r l) (hn : n ∈ l) (fuel : Nat) :
    g.chainFrom fuel r = .error .outOfRange := by
  have hround (fuel : Nat) : ∀ m ∈ l, g.chainFrom fuel (some m) = .error .outOfRange := by
    induction fuel with
    | zero => exact fun _ _ => rfl
    | succ fuel ih =>
      intro m hm
      obtain ⟨node, hnode, -⟩ := h.kind hm
      obtain ⟨k, hk, hchain⟩ : ∃ k ∈ l, node.chain = some k := by
        rcases h.chain_cases hm hnode with hend | hnext
        · exact ⟨n, hn, hend⟩
        · exact hnext
      rw [chainFrom, node_eq_ok.2 ⟨m, rfl, hnode⟩]
      change (g.chainFrom fuel node.chain >>= _) = _
      rw [hchain, ih k hk]
      rfl
  cases l with
  | nil => cases hn
  | cons m l =>
    rw [h.1]
    exact hround fuel m List.mem_cons_self

theorem Strung.congr (h : g.Strung b r l) (hg : ∀ n ∈ l, ∀ node, g.nodes[n]? = some node →
    node.block = b → g'.nodes[n]? = some node) : g'.Strung b r l := by
  cases h with
  | ends h hnodup => exact .ends (h.congr hg) hnodup
  | turns h hnodup hne =>
    exact .turns (h.congr fun n hn => hg n (List.mem_append_left _ hn)) hnodup hne

theorem Strung.kind (h : g.Strung b r l) (hn : n ∈ l) :
    ∃ node, g.nodes[n]? = some node ∧ node.kind = .inst := by
  cases h with
  | ends h _ => exact h.kind hn
  | turns h _ _ =>
    refine h.kind ?_
    rcases List.mem_append.1 hn with hn | hn
    · exact hn
    · simp [List.mem_singleton.1 hn]

/-- Block `b` has a root, behind which nodes were put on the chain. -/
def Rooted (g : Graph ω) (b : BlockId) (l : List NodeId) : Prop :=
  ∃ blk n root, g.blocks[b]? = some blk ∧ blk.root = some n ∧ g.nodes[n]? = some root ∧
    root.block = b ∧ root.kind = .root ∧ g.Strung b root.chain l

end Graph

namespace Builder

variable {conv : Converter ω} {src : Source} {s s' t : Builder ω} {b c : BlockId} {i : InstrId}
  {n : NodeId} {l ns : List NodeId}

/-! ### One more node -/

/-- A node that is not on a piece of a chain goes in front of it. -/
theorem leads_chained {node : Node ω} {e head : NodeRef} (hn : s.graph.nodes[n]? = some node)
    (hkind : node.kind = .inst) (hl : s.graph.Leads node.block e head l) (hnew : n ∉ l) :
    (s.chained n head).graph.Leads node.block e (some n) (n :: l) := by
  refine ⟨rfl, { node with chain := head }, ?_, rfl, hkind, hl.congr fun m hm node' hnode' _ => ?_⟩
  · rw [nodes_chained, if_pos rfl, hn]
    rfl
  · rw [nodes_chained, if_neg, hnode']
    rintro rfl
    exact hnew hm

/-- A node that the builder takes is new on the chain, or it is the last one and closes a round that
passes through other nodes. -/
theorem strung_prepend {head r r' : NodeRef} (h : prepend i head r s = .ok r' s')
    (hl : s.graph.Strung s.current head l) :
    ∃ n, r = some n ∧ s'.graph.Strung s.current r' (n :: l) ∧ Keeps (·.block ≠ s.current) s s' ∧
      s'.memo = s.memo := by
  obtain ⟨n, node, rfl, rfl, hn, hblock, hkind, hchain, hhead, rfl⟩ := prepend_accepts h
  refine ⟨n, rfl, ?_, keeps_chained hn (not_not_intro hblock), rfl⟩
  rw [← hblock] at hl ⊢
  cases hl with
  | ends hl hnodup =>
    by_cases hmem : n ∈ l
    · obtain ⟨init, rfl, hinit⟩ := hl.eq_append hmem hn hchain
      have hnew : n ∉ init := fun h => (List.nodup_append.1 hnodup).2.2 n h n (by simp) rfl
      have hne : init ≠ [] := by
        rintro rfl
        exact hhead hinit
      change Graph.Strung _ _ _ ([] ++ n :: init ++ [n])
      exact .turns (leads_chained hn hkind hinit hnew)
        (List.nodup_cons.2 ⟨hnew, (List.nodup_append.1 hnodup).1⟩) hne
    · exact .ends (leads_chained hn hkind hl hmem) (List.nodup_cons.2 ⟨hmem, hnodup⟩)
  | @turns before between m hl hnodup hne =>
    -- On a chain that goes round every node has another one behind it.
    have hnew : n ∉ before ++ m :: between := by
      intro hmem
      rcases hl.chain_cases hmem hn with hend | ⟨k, -, hnext⟩
      · cases hchain.symm.trans hend
      · cases hchain.symm.trans hnext
    change Graph.Strung _ _ _ (n :: before ++ m :: between ++ [m])
    exact .turns (leads_chained hn hkind hl hnew) (List.nodup_cons.2 ⟨hnew, hnodup⟩) hne

/-- The nodes of one instruction go in front of the chain. -/
theorem strung_foldlM_prepend {chain : List NodeRef} {head head' : NodeRef}
    (h : chain.reverse.foldlM (prepend i) head s = .ok head' s')
    (hl : s.graph.Strung s.current head l) :
    ∃ ns, chain = ns.map some ∧ s'.graph.Strung s.current head' (ns ++ l) ∧
      Keeps (·.block ≠ s.current) s s' ∧ s'.memo = s.memo := by
  induction chain generalizing head' s' with
  | nil =>
    obtain ⟨rfl, rfl⟩ := EStateM.pure_eq_ok.1 h
    exact ⟨[], rfl, hl, .refl s, rfl⟩
  | cons r chain ih =>
    rw [List.reverse_cons, List.foldlM_append, EStateM.bind_eq_ok] at h
    obtain ⟨head₁, t, hrest, hr⟩ := h
    obtain ⟨ns, rfl, hstrung, hkeeps, hmemo⟩ := ih hrest
    simp only [List.foldlM_cons, List.foldlM_nil, bind_pure] at hr
    rw [← hkeeps.current] at hstrung
    obtain ⟨n, rfl, hstrung', hkeeps', hmemo'⟩ := strung_prepend hr hstrung
    rw [hkeeps.current] at hstrung' hkeeps'
    exact ⟨n :: ns, rfl, hstrung', hkeeps.trans hkeeps', hmemo'.trans hmemo⟩

/-! ### Conversions -/

/-- The results that are remembered are those with which conversions ended. -/
def Answered (conv : Converter ω) (src : Source) (s : Builder ω) : Prop :=
  ∀ {i : InstrId} {result : Conversion.Result}, s.memo[i]? = some (.converted result) →
    ∃ fuel t u, runConversion src (convert conv src fuel) (conv src s.context i) t = .ok result u

/-- A relation between builders that holds when a node of the current block is added holds for a run
of a conversion. -/
theorem run_induction {R : Builder ω → Builder ω → Prop} {α : Type} {a : α}
    {visit : InstrId → Build ω NodeRef} (hrefl : ∀ s, R s s)
    (htrans : ∀ {s t u}, R s t → R t u → R s u)
    (hadded : ∀ s payload args, R s (s.added (Node.make s.current payload args)))
    (hvisit : ∀ {i s r s'}, visit i s = .ok r s' → R s s') {c : Conversion ω α}
    (h : runConversion src visit c s = .ok a s') : R s s' := by
  induction c generalizing s with
  | done a =>
    obtain ⟨-, rfl⟩ := EStateM.pure_eq_ok.1 h
    exact hrefl s
  | stop e => exact absurd h EStateM.throw_ne_ok
  | inst op args next ih | imm x bits next ih | vreg r next ih | slot m next ih =>
    obtain ⟨n, t, hmake, h⟩ := EStateM.bind_eq_ok.1 h
    obtain ⟨-, rfl⟩ := make_eq_ok hmake
    exact htrans (hadded s _ _) (ih _ h)
  | block b next ih =>
    obtain ⟨n, t, hmake, h⟩ := EStateM.bind_eq_ok.1 h
    obtain ⟨_, -, -, rfl⟩ := makeBlock_eq_ok hmake
    exact htrans (hadded s _ _) (ih _ h)
  | leaf v next ih =>
    obtain ⟨n, t, hmake, h⟩ := EStateM.bind_eq_ok.1 h
    obtain ⟨_, -, -, rfl⟩ := makeLeaf_eq_ok hmake
    exact htrans (hadded s _ _) (ih _ h)
  | operand v next ih =>
    simp only [runConversion, EStateM.bind_eq_ok, EStateM.get_eq_ok, liftStop_eq_ok] at h
    obtain ⟨_, _, ⟨rfl, rfl⟩, p, _, ⟨-, rfl⟩, h⟩ := h
    cases p with
    | some j =>
      obtain ⟨r, t, hj, h⟩ := EStateM.bind_eq_ok.1 h
      exact htrans (hvisit hj) (ih _ h)
    | none =>
      obtain ⟨n, t, hmake, h⟩ := EStateM.bind_eq_ok.1 h
      obtain ⟨_, -, -, rfl⟩ := makeLeaf_eq_ok hmake
      exact htrans (hadded s _ _) (ih _ h)

/-- Converting an instruction changes no node, and what it ends with is what the converter gave
back. -/
theorem returned_convert (keep : Node ω → Prop) (fuel : Nat) {r : NodeRef}
    (h : convert conv src fuel i s = .ok r s') :
    (Keeps keep s s' ∧ (Answered conv src s → Answered conv src s')) ∧
      ∃ result, s'.memo[i]? = some (.converted result) := by
  induction fuel generalizing i s r s' with
  | zero => exact absurd h EStateM.throw_ne_ok
  | succ fuel ih =>
    rcases convert_eq_ok h with ⟨result, hm, -, rfl⟩ | ⟨result, t, hm, hrun, -, rfl⟩
    · exact ⟨⟨.refl s', id⟩, result, hm⟩
    · have hi : i < s.memo.size := (Array.getElem?_eq_some_iff.1 hm).1
      obtain ⟨hkeeps, hanswered⟩ : Keeps keep (s.remembered i .inProgress) t ∧
          (Answered conv src (s.remembered i .inProgress) → Answered conv src t) :=
        run_induction (R := fun s s' => Keeps keep s s' ∧ (Answered conv src s →
            Answered conv src s')) (fun s => ⟨.refl s, id⟩)
          (fun h h' => ⟨h.1.trans h'.1, fun ha => h'.2 (h.2 ha)⟩)
          (fun s _ _ => ⟨keeps_added s _, id⟩) (fun hv => (ih hv).1) hrun
      obtain ⟨hbusy, hwhole⟩ : t.memo[i]? = some .inProgress ∧
          Keeps keep s (t.remembered i (.converted result)) := hkeeps.convert hm
      have hsize : i < t.memo.size := (Array.getElem?_eq_some_iff.1 hbusy).1
      refine ⟨⟨hwhole, fun ha {j result'} hj => ?_⟩, result, by simp [memo_remembered hsize]⟩
      have hbegun : Answered conv src (s.remembered i .inProgress) := by
        intro k result'' hk
        rw [memo_remembered hi] at hk
        split at hk
        · cases hk
        · exact ha hk
      rw [memo_remembered hsize] at hj
      split at hj
      · next hij =>
        cases hj
        subst hij
        refine ⟨fuel, s.remembered i .inProgress, t, ?_⟩
        have hcontext : (t.remembered i (.converted result)).context = s.context := hkeeps.context
        rw [hcontext]
        exact hrun
      · exact hanswered hbegun hj

/-- The converter gave back the nodes `ns` to be chained for an instruction. -/
def Returned (conv : Converter ω) (src : Source) (s : Builder ω) (i : InstrId)
    (ns : List NodeId) : Prop :=
  ∃ result fuel t u, s.memo[i]? = some (.converted result) ∧ result.chain = ns.map some ∧
    runConversion src (convert conv src fuel) (conv src s.context i) t = .ok result u

theorem Returned.mono (h : Returned conv src s i ns) (hg : s.Grows s') :
    Returned conv src s' i ns := by
  obtain ⟨result, fuel, t, u, hm, hns, hrun⟩ := h
  exact ⟨result, fuel, t, u, hg.memo hm, hns, hg.context ▸ hrun⟩

/-! ### Blocks -/

/-- One more instruction puts what the converter gave back for it in front of the chain. -/
theorem strung_buildInstr {tail tail' : Tail} (h : buildInstr conv src tail i s = .ok tail' s')
    (ha : Answered conv src s) (hl : s.graph.Strung s.current tail.head l) :
    ∃ ns, Returned conv src s' i ns ∧ s'.graph.Strung s.current tail'.head (ns ++ l) ∧
      Keeps (·.block ≠ s.current) s s' ∧ Answered conv src s' := by
  obtain ⟨r, s₁, chain, s₂, ins, hconvert, hchain, -, -, hfold, -⟩ := buildInstr_eq_ok h
  obtain ⟨⟨hkeeps, hanswered⟩, result, hm⟩ := returned_convert (fun _ => True) _ hconvert
  obtain ⟨rfl, rfl⟩ := chainOf_eq_ok hm hchain
  have hcurrent := hkeeps.current
  have hstrung : s₂.graph.Strung s₂.current tail.head l :=
    hcurrent ▸ hl.congr fun n _ node hn _ => hkeeps.same hn trivial
  obtain ⟨ns, hns, hstrung', hkeeps', hmemo⟩ := strung_foldlM_prepend hfold hstrung
  rw [hcurrent] at hstrung' hkeeps'
  obtain ⟨fuel, t, u, hrun⟩ := hanswered ha hm
  refine ⟨ns, ?_, hstrung', (hkeeps.mono fun _ _ => trivial).trans hkeeps', fun {j _} hj => ?_⟩
  · exact Returned.mono ⟨result, fuel, t, u, hm, hns, hrun⟩ hkeeps'.toGrows
  · rw [hkeeps'.context]
    exact hanswered ha (hmemo ▸ hj)

/-- The instructions of a block put what the converter gave back for them on the chain, in program
order. -/
theorem strung_buildInstrs {is : List InstrId} {tail : Tail} (ha : Answered conv src s)
    (h : is.reverse.foldlM (buildInstr conv src) {} s = .ok tail s') :
    ∃ nss, List.Forall₂ (Returned conv src s') is nss ∧
      s'.graph.Strung s.current tail.head nss.flatten ∧ Keeps (·.block ≠ s.current) s s' ∧
      Answered conv src s' := by
  induction is generalizing tail s' with
  | nil =>
    obtain ⟨rfl, rfl⟩ := EStateM.pure_eq_ok.1 h
    exact ⟨[], .nil, .ends rfl .nil, .refl s, ha⟩
  | cons i is ih =>
    rw [List.reverse_cons, List.foldlM_append, EStateM.bind_eq_ok] at h
    obtain ⟨tail₁, t, hrest, hlast⟩ := h
    simp only [List.foldlM_cons, List.foldlM_nil, bind_pure] at hlast
    obtain ⟨nss, hreturned, hstrung, hkeeps, hanswered⟩ := ih hrest
    rw [← hkeeps.current] at hstrung
    obtain ⟨ns, hns, hstrung', hkeeps', hanswered'⟩ := strung_buildInstr hlast hanswered hstrung
    rw [hkeeps.current] at hstrung' hkeeps'
    exact ⟨ns :: nss, .cons hns (hreturned.imp fun _ _ h => h.mono hkeeps'.toGrows), hstrung',
      hkeeps.trans hkeeps', hanswered'⟩

/-- A block with its root, behind which the builder put what the converter gave back for the
instructions of the block. -/
def Complete (conv : Converter ω) (src : Source) (s : Builder ω) (b : BlockId) (blk : Block) :
    Prop :=
  ∃ nss, List.Forall₂ (Returned conv src s) blk.instrs nss ∧ s.graph.Rooted b nss.flatten

/-- Building another block leaves a block as it is. -/
theorem Complete.mono {blk : Block} (h : Complete conv src s b blk) (hp : Passes c s s')
    (hne : b ≠ c) : Complete conv src s' b blk := by
  obtain ⟨nss, hreturned, gblk, n, root, hblk, hroot, hn, hb, hkind, hstrung⟩ := h
  refine ⟨nss, hreturned.imp fun _ _ h => h.mono hp.toGrows, gblk, n, root, ?_, hroot,
    hp.same hn (hb ▸ hne), hb, hkind, hstrung.congr fun m _ node hm hb' => hp.same hm (hb' ▸ hne)⟩
  rw [hp.others hne, hblk]

theorem complete_buildBlock {blk : Block} (hlt : b < s.graph.blocks.size)
    (ha : Answered conv src s) (h : buildBlock conv src b blk s = .ok () s') :
    Passes b s s' ∧ Answered conv src s' ∧ Complete conv src s' b blk := by
  obtain ⟨tail, t, hfold, rfl⟩ := buildBlock_eq_ok.1 h
  obtain ⟨nss, hreturned, hstrung, hkeeps, hanswered⟩ :=
    strung_buildInstrs (s := s.opened b) ha hfold
  obtain ⟨chain, hn⟩ : ∃ chain, t.graph.nodes[s.graph.nodes.size]? =
      some { (Node.root b : Node ω) with chain } :=
    hkeeps.graph.node (by simp [opened, added, Graph.updateBlock])
  have hblk : t.graph.blocks[b]? =
      some { s.graph.blocks[b] with root := some s.graph.nodes.size } := by
    simp [hkeeps.blocks, opened, added, Graph.updateBlock, Array.getElem_modify, hlt]
  have hclosed : Passes b t (t.closed b s.graph.nodes.size tail) := passes_closed hn rfl tail
  have hnode (m : NodeId) : (t.closed b s.graph.nodes.size tail).graph.nodes[m]? =
      (t.chained s.graph.nodes.size tail.head).graph.nodes[m]? := rfl
  refine ⟨((passes_opened s b).trans hkeeps.passes).trans hclosed, hanswered, nss,
    hreturned.imp fun _ _ h => h.mono hclosed.toGrows,
    { s.graph.blocks[b] with root := some s.graph.nodes.size, effects := tail.effects },
    s.graph.nodes.size, { Node.root b with chain := tail.head }, ?_, rfl, ?_, rfl, rfl,
    hstrung.congr fun m hm node hm' _ => ?_⟩
  · simp [closed, chained, Graph.updateBlock, Graph.updateNode, Array.getElem?_modify, hblk]
  · rw [hnode, nodes_chained, if_pos rfl, hn]
    rfl
  · -- The root is no operation, so that it is not on the chain.
    rw [hnode, nodes_chained, if_neg, hm']
    rintro rfl
    obtain ⟨node', hnode', hkind⟩ := hstrung.kind hm
    cases hn.symm.trans hnode'
    cases hkind

/-! ### Functions -/

theorem complete_buildBlocks {blks : List (BlockId × Block)}
    (hlt : ∀ b ∈ blks.map Prod.fst, b < s.graph.blocks.size) (hnodup : (blks.map Prod.fst).Nodup)
    (ha : Answered conv src s) (h : buildBlocks conv src blks s = .ok () s') :
    (∀ b blk, (b, blk) ∈ blks → Complete conv src s' b blk) ∧
      ∀ b ∉ blks.map Prod.fst, ∀ blk, Complete conv src s b blk → Complete conv src s' b blk := by
  induction blks generalizing s with
  | nil =>
    obtain ⟨-, rfl⟩ := EStateM.pure_eq_ok.1 h
    exact ⟨by simp, fun _ _ _ h => h⟩
  | cons blk blks ih =>
    obtain ⟨b, blk⟩ := blk
    obtain ⟨hnot, hnodup⟩ := List.nodup_cons.1 hnodup
    obtain ⟨hb, hlt⟩ := List.forall_mem_cons.1 hlt
    simp only [buildBlocks, EStateM.bind_eq_ok, atPlace_eq_ok] at h
    obtain ⟨_, t, hblock, hrest⟩ := h
    obtain ⟨hpass, hanswered, hcomplete⟩ := complete_buildBlock hb ha hblock
    obtain ⟨hnew, hold⟩ := ih (fun c hc => hpass.size ▸ hlt c hc) hnodup hanswered hrest
    refine ⟨fun c blk' hc => ?_, fun c hc blk' hc' => ?_⟩
    · rcases List.mem_cons.1 hc with hc | hc
      · cases hc
        exact hold b hnot blk hcomplete
      · exact hnew c blk' hc
    · obtain ⟨hne, hc⟩ := not_or.1 (mt List.mem_cons.2 hc)
      exact hold c hc blk' (hc'.mono hpass hne)

/-- Whatever the converter is, in each block of a graph that was built the nodes that it gave back
for the instructions are all different, and the chain passes from the root through them in program
order and ends; or the last of them was given back once before, with others in between, and the
chain never ends. -/
theorem build_chains_or_turns {g : Graph ω} {blk : Block} (h : build conv src s = .ok g s')
    (hb : src.func.blocks[b]? = some blk) :
    ∃ nss gblk root, List.Forall₂ (Returned conv src s') blk.instrs nss ∧
      g.block b = .ok gblk ∧ g.node gblk.root = .ok root ∧ root.kind = .root ∧
      (nss.flatten.Nodup ∧ g.Linked b root.chain nss.flatten ∧ g.chainOrder b = .ok nss.flatten ∨
        (∃ before n between, nss.flatten = before ++ n :: between ++ [n] ∧ between ≠ [] ∧
          (before ++ n :: between).Nodup) ∧
        ∀ fuel, g.chainFrom fuel root.chain = .error .outOfRange) := by
  obtain ⟨s₁, t, hstart, hblocks, rfl, rfl⟩ := build_eq_ok.1 h
  obtain ⟨-, hgraph, hmemo⟩ := start_eq_ok hstart
  obtain ⟨-, -, -, hsize, -⟩ := emptyGraph_eq_ok hgraph
  have hanswered : Answered conv src s₁ := by
    intro i result hi
    simp [hmemo, Array.getElem?_replicate] at hi
  obtain ⟨hcomplete, -⟩ := complete_buildBlocks
    (fun c hc => hsize ▸ Func.mem_map_fst_layout.1 hc) src.func.nodup_map_fst_layout hanswered
    hblocks
  obtain ⟨nss, hreturned, gblk, n, root, hgblk, hroot, hn, -, hkind, hstrung⟩ :=
    hcomplete b blk (Func.mem_layout.2 hb)
  have hblock : t.graph.block b = .ok gblk := by rw [Graph.block, hgblk]
  have hnode : t.graph.node gblk.root = .ok root := Graph.node_eq_ok.2 ⟨n, hroot, hn⟩
  refine ⟨nss, gblk, root, hreturned, hblock, hnode, hkind, ?_⟩
  generalize nss.flatten = l at hstrung
  cases hstrung with
  | ends hleads hnodup =>
    refine .inl ⟨hnodup, hleads.linked, ?_⟩
    simp only [Graph.chainOrder, Except.bind_eq_ok]
    exact ⟨gblk, hblock, root, hnode,
      hleads.linked.chainFrom_eq_ok (hleads.linked.length_le hnodup)⟩
  | @turns before between m hleads hnodup hne =>
    exact .inr ⟨⟨before, m, between, rfl, hne, hnodup⟩, hleads.chainFrom_eq_error (by simp)⟩

/-- A function that loads twice and returns its argument. -/
def loading : Source where
  types := Func.sampleTypes
  func := (Func.sampleStart.assemble []
    [[.load 2 1, .load 2 1, .ret (some 1)]]).getD Func.sampleStart

/-- The recipe that chains node `n` for the first load. -/
def chaining (n : NodeId) : Converter String :=
  Recipe.converter [(0, .steps [] (.node none) [.node (some n)])]

/-- The general rule gives a chain that ends. A converter that gives back the node of the second
load for the first one too is refused. If it gives back the node of the last instruction instead,
there is a graph, and its chain goes round. -/
theorem build_chains_or_turns_samples :
    (∃ g s' nss, build (Recipe.converter []) loading {} = .ok g s' ∧
      List.Forall₂ (Returned (Recipe.converter []) loading s') [0, 1, 2] nss ∧
      nss.flatten.Nodup ∧ g.chainOrder 0 = .ok nss.flatten) ∧
    (∀ g s', build (chaining 4) loading {} ≠ .ok g s') ∧
    ∃ g s' blk root, build (chaining 2) loading {} = .ok g s' ∧ g.block 0 = .ok blk ∧
      g.node blk.root = .ok root ∧ ∀ fuel, g.chainFrom fuel root.chain = .error .outOfRange := by
  have hblk : loading.func.blocks[0]? = some { name := "", instrs := [0, 1, 2] } := by
    decide +kernel
  refine ⟨?_, ?_, ?_⟩
  · have hends : EStateM.gives (fun g => decide (g.chainOrder 0 = .ok [6, 4, 2]))
        (build (Recipe.converter []) loading {}) = true := by decide +kernel
    obtain ⟨g, s', hbuild, hends⟩ := EStateM.eq_ok_of_gives hends
    have hends := of_decide_eq_true hends
    obtain ⟨nss, blk, root, hreturned, hblock, hroot, -, hchain | ⟨-, hround⟩⟩ :=
      build_chains_or_turns hbuild hblk
    · exact ⟨g, s', nss, hbuild, hreturned, hchain.1, hchain.2.2⟩
    · simp [Graph.chainOrder, Except.bind_eq_ok, hblock, hroot, hround] at hends
  · intro g s' hbuild
    have hstops : EStateM.isOk (build (chaining 4) loading {}) = false := by decide +kernel
    rw [hbuild] at hstops
    cases hstops
  · have hturns : EStateM.gives (fun g => decide (g.chainOrder 0 = .error .outOfRange))
        (build (chaining 2) loading {}) = true := by decide +kernel
    obtain ⟨g, s', hbuild, hturns⟩ := EStateM.eq_ok_of_gives hturns
    obtain ⟨nss, blk, root, -, hblock, hroot, -, hchain | ⟨-, hround⟩⟩ :=
      build_chains_or_turns hbuild hblk
    · cases hchain.2.2.symm.trans (of_decide_eq_true hturns)
    · exact ⟨g, s', blk, root, hbuild, hblock, hroot, hround⟩

end Builder

end Codegen
