import Codegen.Graph.Builder
import Codegen.Proofs.Answer

/-!
# How a builder grows a graph

While a builder works, nodes are added and never change, except that they are put on a chain. What
it remembers about an instruction whose conversion has begun is only changed when the conversion
ends. Statements about nodes that do not mention their place on a chain therefore stay true.

## Main definitions

* `Graph.Has`: a node with its payload and its operands, which were made before it.
* `Builder.Grows`, `Builder.Keeps`: what a builder leaves as it is.
* `Graph.Linked`: the nodes on a chain from some node on.

## Main results

* `Builder.runConversion_bind`: conversions in sequence are run in sequence.
* `Builder.convert_eq_ok`: an instruction was converted before, or is converted now.
* `Builder.linked_chained`, `Builder.foldlM_prepend_eq_ok`: putting nodes in front of a chain.
-/

namespace Codegen

variable {ω : Type}

/-! ### Graphs -/

namespace Graph

variable {g g' : Graph ω} {n : NodeId} {b : BlockId} {payload : Payload ω} {args : List NodeRef}

/-- Node `n` belongs to block `b`, has a payload and reads nodes that were made before it. Where it
stands on a chain is left open. -/
def Has (g : Graph ω) (n : NodeId) (b : BlockId) (payload : Payload ω) (args : List NodeRef) :
    Prop :=
  (∃ chain, g.nodes[n]? = some { Node.make b payload args with chain }) ∧
    ∀ r ∈ args, ∀ m, r = some m → m < n

/-- A reference to a node that has been made. -/
def Made (g : Graph ω) (r : NodeRef) : Prop := ∀ n, r = some n → n < g.nodes.size

/-- All nodes are still there, though perhaps on a chain. -/
structure Grows (g g' : Graph ω) : Prop where
  regs : g'.regs = g.regs
  labels : g'.labels = g.labels
  node : ∀ {n : NodeId} {node : Node ω}, g.nodes[n]? = some node →
    ∃ chain, g'.nodes[n]? = some { node with chain }

theorem Grows.refl (g : Graph ω) : g.Grows g := ⟨rfl, rfl, fun h => ⟨_, h⟩⟩

theorem Grows.trans {g'' : Graph ω} (h : g.Grows g') (h' : g'.Grows g'') : g.Grows g'' := by
  refine ⟨h'.regs.trans h.regs, h'.labels.trans h.labels, fun {n node} hn => ?_⟩
  obtain ⟨_, hn⟩ := h.node hn
  obtain ⟨chain, hn⟩ := h'.node hn
  exact ⟨chain, hn⟩

theorem Has.mono (h : g.Has n b payload args) (hg : g.Grows g') : g'.Has n b payload args := by
  obtain ⟨⟨_, hn⟩, hargs⟩ := h
  obtain ⟨chain, hn⟩ := hg.node hn
  exact ⟨⟨chain, hn⟩, hargs⟩

theorem Has.lt_size (h : g.Has n b payload args) : n < g.nodes.size := by
  obtain ⟨⟨chain, hn⟩, -⟩ := h
  exact (Array.getElem?_eq_some_iff.1 hn).1

theorem Has.made (h : g.Has n b payload args) : g.Made (some n) := by
  rintro _ ⟨⟩
  exact h.lt_size

theorem node_eq_ok {r : NodeRef} {node : Node ω} :
    g.node r = .ok node ↔ ∃ n, r = some n ∧ g.nodes[n]? = some node := by
  unfold Graph.node
  cases r with
  | none => simp
  | some n => cases h : g.nodes[n]? <;> simp [h]

/-! ### Chains -/

/-- The nodes on the chain that starts at a reference. They belong to block `b`. -/
def Linked (g : Graph ω) (b : BlockId) : NodeRef → List NodeId → Prop
  | r, [] => r = none
  | r, n :: l => r = some n ∧ ∃ node, g.nodes[n]? = some node ∧ node.block = b ∧
    Linked g b node.chain l

variable {r : NodeRef} {l : List NodeId}

/-- A chain only depends on the nodes on it. -/
theorem Linked.congr (h : g.Linked b r l) (hg : ∀ n ∈ l, ∀ node, g.nodes[n]? = some node →
    node.block = b → g'.nodes[n]? = some node) : g'.Linked b r l := by
  induction l generalizing r with
  | nil => exact h
  | cons n l ih =>
    obtain ⟨hr, node, hn, hb, hl⟩ := h
    obtain ⟨hgn, hg⟩ := List.forall_mem_cons.1 hg
    exact ⟨hr, node, hgn node hn hb, hb, ih hl hg⟩

theorem Linked.mem_of_some (h : g.Linked b (some n) l) : n ∈ l := by
  cases l with
  | nil => cases h
  | cons m l =>
    cases h.1
    exact List.mem_cons_self

theorem Linked.exists_node (h : g.Linked b r l) :
    ∀ n ∈ l, ∃ node, g.nodes[n]? = some node ∧ node.block = b := by
  induction l generalizing r with
  | nil => simp
  | cons n l ih =>
    obtain ⟨-, node, hn, hb, hl⟩ := h
    exact List.forall_mem_cons.2 ⟨⟨node, hn, hb⟩, ih hl⟩

/-- A chain of different nodes is no longer than the list of all nodes. -/
theorem Linked.length_le (h : g.Linked b r l) (hnodup : l.Nodup) : l.length ≤ g.nodes.size := by
  have hsub : l ⊆ List.range g.nodes.size := by
    intro n hn
    obtain ⟨node, hn, -⟩ := h.exists_node n hn
    exact List.mem_range.2 (Array.getElem?_eq_some_iff.1 hn).1
  simpa using (hnodup.subperm hsub).length_le

/-- Following a chain finds the nodes on it. -/
theorem Linked.chainFrom_eq_ok (h : g.Linked b r l) {fuel : Nat} (hfuel : l.length ≤ fuel) :
    g.chainFrom fuel r = .ok l := by
  induction l generalizing r fuel with
  | nil =>
    obtain rfl : r = none := h
    rw [chainFrom]
  | cons n l ih =>
    obtain ⟨rfl, node, hn, -, hl⟩ := h
    obtain _ | fuel := fuel
    · cases hfuel
    · rw [chainFrom, Except.bind_eq_ok]
      refine ⟨node, node_eq_ok.2 ⟨n, rfl, hn⟩, ?_⟩
      rw [ih hl (Nat.le_of_succ_le_succ hfuel)]
      rfl

end Graph

/-! ### Conversions in sequence -/

namespace Conversion

variable {α β γ : Type}

theorem bind_done (c : Conversion ω α) : c.bind done = c := by
  induction c with
  | done a => rfl
  | stop e => rfl
  | inst op args next ih => simp only [bind, ih]
  | imm x bits next ih => simp only [bind, ih]
  | vreg r next ih => simp only [bind, ih]
  | slot m next ih => simp only [bind, ih]
  | block b next ih => simp only [bind, ih]
  | operand v next ih => simp only [bind, ih]
  | leaf v next ih => simp only [bind, ih]

theorem bind_bind (c : Conversion ω α) (k : α → Conversion ω β) (k' : β → Conversion ω γ) :
    (c.bind k).bind k' = c.bind fun a => (k a).bind k' := by
  induction c with
  | done a => rfl
  | stop e => rfl
  | inst op args next ih => simp only [bind, ih]
  | imm x bits next ih => simp only [bind, ih]
  | vreg r next ih => simp only [bind, ih]
  | slot m next ih => simp only [bind, ih]
  | block b next ih => simp only [bind, ih]
  | operand v next ih => simp only [bind, ih]
  | leaf v next ih => simp only [bind, ih]

/-- Conversions obey the laws of sequences. -/
instance : LawfulMonad (Conversion ω) :=
  .mk' (Conversion ω) bind_done (fun _ _ => rfl) bind_bind

end Conversion

/-! ### Builders -/

namespace Builder

variable {s s' t : Builder ω} {keep : Node ω → Prop} {src : Source} {n : NodeId} {i j : InstrId}
  {v : ValueId} {b : BlockId} {payload : Payload ω} {args : List NodeRef}

/-- The assignments and the conversions that have ended stay, and the graph grows. -/
structure Grows (s s' : Builder ω) : Prop where
  context : s'.context = s.context
  graph : s.graph.Grows s'.graph
  memo : ∀ {i : InstrId} {result : Conversion.Result}, s.memo[i]? = some (.converted result) →
    s'.memo[i]? = some (.converted result)

/-- A step inside a block leaves some nodes as they are, and what is in progress is still so. -/
structure Keeps (keep : Node ω → Prop) (s s' : Builder ω) : Prop extends Grows s s' where
  current : s'.current = s.current
  blocks : s'.graph.blocks = s.graph.blocks
  busy : ∀ {i : InstrId}, s.memo[i]? = some .inProgress → s'.memo[i]? = some .inProgress
  same : ∀ {n : NodeId} {node : Node ω}, s.graph.nodes[n]? = some node → keep node →
    s'.graph.nodes[n]? = some node

theorem Grows.refl (s : Builder ω) : s.Grows s := ⟨rfl, .refl _, id⟩

theorem Grows.trans (h : s.Grows s') (h' : s'.Grows t) : s.Grows t :=
  ⟨h'.context.trans h.context, h.graph.trans h'.graph, fun hm => h'.memo (h.memo hm)⟩

theorem Keeps.refl (s : Builder ω) : Keeps keep s s := ⟨.refl s, rfl, rfl, id, fun h _ => h⟩

theorem Keeps.trans (h : Keeps keep s s') (h' : Keeps keep s' t) : Keeps keep s t :=
  ⟨h.toGrows.trans h'.toGrows, h'.current.trans h.current, h'.blocks.trans h.blocks,
    fun hi => h'.busy (h.busy hi), fun hn hk => h'.same (h.same hn hk) hk⟩

theorem Keeps.mono {keep' : Node ω → Prop} (h : Keeps keep s s')
    (hk : ∀ node, keep' node → keep node) : Keeps keep' s s' :=
  ⟨h.toGrows, h.current, h.blocks, h.busy, fun hn hkeep => h.same hn (hk _ hkeep)⟩

/-! ### Making nodes -/

/-- A builder with one more node. -/
def added (s : Builder ω) (node : Node ω) : Builder ω :=
  { s with graph := { s.graph with nodes := s.graph.nodes.push node } }

theorem keeps_added (s : Builder ω) (node : Node ω) : Keeps keep s (s.added node) := by
  have hpush {n : NodeId} {m : Node ω} (hn : s.graph.nodes[n]? = some m) :
      (s.added node).graph.nodes[n]? = some m := by
    have hlt : n < s.graph.nodes.size := (Array.getElem?_eq_some_iff.1 hn).1
    simpa [added, Array.getElem?_push, Nat.ne_of_lt hlt] using hn
  exact ⟨⟨rfl, ⟨rfl, rfl, fun hn => ⟨_, hpush hn⟩⟩, id⟩, rfl, rfl, id, fun hn _ => hpush hn⟩

theorem has_added (hargs : ∀ r ∈ args, s.graph.Made r) :
    (s.added (Node.make b payload args)).graph.Has s.graph.nodes.size b payload args :=
  ⟨⟨none, by simp [added, Node.make]⟩, hargs⟩

theorem push_eq_ok {node : Node ω} :
    push node s = .ok n s' ↔ n = s.graph.nodes.size ∧ s' = s.added node := by
  simp only [push, EStateM.bind_eq_ok, EStateM.get_eq_ok, EStateM.set_eq_ok, EStateM.pure_eq_ok,
    Graph.addNode]
  constructor
  · rintro ⟨_, _, ⟨rfl, rfl⟩, _, _, rfl, rfl, rfl⟩
    exact ⟨rfl, rfl⟩
  · rintro ⟨rfl, rfl⟩
    exact ⟨_, _, ⟨rfl, rfl⟩, (), _, rfl, rfl, rfl⟩

theorem checkLimit_eq_ok {a : Unit} (h : checkLimit s = .ok a s') : s = s' := by
  simp only [checkLimit, EStateM.bind_eq_ok, EStateM.get_eq_ok] at h
  obtain ⟨_, _, ⟨rfl, rfl⟩, h⟩ := h
  split at h
  · exact absurd h EStateM.throw_ne_ok
  · exact (EStateM.pure_eq_ok.1 h).2

theorem make_eq_ok (h : make payload args s = .ok n s') :
    n = s.graph.nodes.size ∧ s' = s.added (Node.make s.current payload args) := by
  simp only [make, EStateM.bind_eq_ok, EStateM.get_eq_ok] at h
  obtain ⟨_, _, hlimit, _, _, ⟨rfl, rfl⟩, h⟩ := h
  obtain rfl := checkLimit_eq_ok hlimit
  exact push_eq_ok.1 h

theorem makeBlock_eq_ok (h : makeBlock b s = .ok n s') :
    ∃ l, s.context.label b = .ok l ∧ n = s.graph.nodes.size ∧
      s' = s.added (Node.make s.current (.block l b) []) := by
  simp only [makeBlock, EStateM.bind_eq_ok, EStateM.get_eq_ok, liftStop_eq_ok, liftFault_eq_ok] at h
  obtain ⟨_, _, hlimit, _, _, ⟨rfl, rfl⟩, l, _, ⟨hl, rfl⟩, h⟩ := h
  obtain rfl := checkLimit_eq_ok hlimit
  exact ⟨l, hl, push_eq_ok.1 h⟩

theorem makeLeaf_eq_ok (h : makeLeaf src v s = .ok n s') :
    ∃ payload, leafPayload src s.context v = .ok payload ∧ n = s.graph.nodes.size ∧
      s' = s.added (Node.make s.current payload []) := by
  simp only [makeLeaf, EStateM.bind_eq_ok, EStateM.get_eq_ok, liftStop_eq_ok] at h
  obtain ⟨_, _, ⟨rfl, rfl⟩, payload, _, ⟨hp, rfl⟩, h⟩ := h
  exact ⟨payload, hp, make_eq_ok h⟩

/-! ### Running conversions -/

section Run

variable {α β : Type} {visit : InstrId → Build ω NodeRef}

/-- Conversions in sequence are run in sequence. -/
theorem runConversion_bind (c : Conversion ω α) (k : α → Conversion ω β) :
    runConversion src visit (c >>= k) = runConversion src visit c >>= fun a =>
      runConversion src visit (k a) := by
  change runConversion src visit (c.bind k) = _
  induction c with
  | done a => simp [Conversion.bind, runConversion]
  | stop e => rfl
  | inst op args next ih => simp only [Conversion.bind, runConversion, ih, bind_assoc]
  | imm x bits next ih => simp only [Conversion.bind, runConversion, ih, bind_assoc]
  | vreg r next ih => simp only [Conversion.bind, runConversion, ih, bind_assoc]
  | slot m next ih => simp only [Conversion.bind, runConversion, ih, bind_assoc]
  | block b next ih => simp only [Conversion.bind, runConversion, ih, bind_assoc]
  | operand v next ih =>
    simp only [Conversion.bind, runConversion, ih, bind_assoc]
    refine bind_congr fun _ => bind_congr fun p => ?_
    cases p <;> simp only [bind_assoc]
  | leaf v next ih => simp only [Conversion.bind, runConversion, ih, bind_assoc]

theorem run_bind {c : Conversion ω α} {k : α → Conversion ω β} {x : β} :
    runConversion src visit (c >>= k) s = .ok x s' ↔
      ∃ a t, runConversion src visit c s = .ok a t ∧
        runConversion src visit (k a) t = .ok x s' := by
  rw [runConversion_bind, EStateM.bind_eq_ok]

theorem run_pure {a x : α} :
    runConversion src visit (pure a) s = .ok x s' ↔ a = x ∧ s = s' := EStateM.pure_eq_ok

theorem run_throw {e : Stop} {x : α} :
    runConversion src visit (throw e : Conversion ω α) s ≠ .ok x s' := EStateM.throw_ne_ok

theorem run_lift {q : Except Stop α} {x : α} :
    runConversion src visit (liftM q : Conversion ω α) s = .ok x s' ↔ q = .ok x ∧ s = s' := by
  cases q with
  | ok a =>
    refine run_pure.trans ?_
    simp
  | error e =>
    refine iff_of_false run_throw ?_
    simp

theorem run_ite {p : Prop} [Decidable p] {c c' : Conversion ω α} {x : α} :
    runConversion src visit (if p then c else c') s = .ok x s' ↔
      p ∧ runConversion src visit c s = .ok x s' ∨
        ¬p ∧ runConversion src visit c' s = .ok x s' := by
  by_cases hp : p <;> simp [hp]

theorem run_bind_pure {c : Conversion ω α} {f : α → β} {x : β} :
    runConversion src visit (c >>= fun a => pure (f a)) s = .ok x s' ↔
      ∃ a, runConversion src visit c s = .ok a s' ∧ f a = x := by
  simp only [run_bind, run_pure]
  exact ⟨fun ⟨a, _, ha, hx, ht⟩ => ⟨a, ht ▸ ha, hx⟩, fun ⟨a, ha, hx⟩ => ⟨a, _, ha, hx, rfl⟩⟩

theorem run_map {c : Conversion ω α} {f : α → β} {x : β} :
    runConversion src visit (f <$> c) s = .ok x s' ↔
      ∃ a, runConversion src visit c s = .ok a s' ∧ f a = x := run_bind_pure

theorem run_mapM_nil {f : α → Conversion ω β} {bs : List β} :
    runConversion src visit ([].mapM f) s = .ok bs s' ↔ [] = bs ∧ s = s' := by
  rw [List.mapM_nil, run_pure]

theorem run_mapM_cons {f : α → Conversion ω β} {a : α} {l : List α} {bs : List β} :
    runConversion src visit ((a :: l).mapM f) s = .ok bs s' ↔ ∃ b t rest,
      runConversion src visit (f a) s = .ok b t ∧
      runConversion src visit (l.mapM f) t = .ok rest s' ∧ b :: rest = bs := by
  simp only [List.mapM_cons, run_bind, run_pure]
  constructor
  · rintro ⟨b, t, hb, rest, _, hrest, rfl, rfl⟩
    exact ⟨b, t, rest, hb, hrest, rfl⟩
  · rintro ⟨b, t, rest, hb, hrest, rfl⟩
    exact ⟨b, t, hb, rest, s', hrest, rfl, rfl⟩

theorem run_makeInst {op : ω}
    (h : runConversion src visit (Conversion.makeInst op args) s = .ok n s') :
    n = s.graph.nodes.size ∧ s' = s.added (Node.make s.current (.inst op) args) := by
  obtain ⟨_, _, hmake, h⟩ := EStateM.bind_eq_ok.1 h
  obtain ⟨rfl, rfl⟩ := run_pure.1 h
  exact make_eq_ok hmake

theorem run_makeBlock (h : runConversion src visit (Conversion.makeBlock b) s = .ok n s') :
    ∃ l, s.context.label b = .ok l ∧ n = s.graph.nodes.size ∧
      s' = s.added (Node.make s.current (.block l b) []) := by
  obtain ⟨_, _, hmake, h⟩ := EStateM.bind_eq_ok.1 h
  obtain ⟨rfl, rfl⟩ := run_pure.1 h
  exact makeBlock_eq_ok hmake

theorem run_makeLeaf (h : runConversion src visit (Conversion.makeLeaf v) s = .ok n s') :
    ∃ payload, leafPayload src s.context v = .ok payload ∧ n = s.graph.nodes.size ∧
      s' = s.added (Node.make s.current payload []) := by
  obtain ⟨_, _, hmake, h⟩ := EStateM.bind_eq_ok.1 h
  obtain ⟨rfl, rfl⟩ := run_pure.1 h
  exact makeLeaf_eq_ok hmake

/-- An operand is produced by an instruction of the same block, or it is a leaf. -/
theorem run_makeOperand {r : NodeRef}
    (h : runConversion src visit (Conversion.makeOperand v) s = .ok r s') :
    (∃ i, producer? src s.context s.current v = .ok (some i) ∧ visit i s = .ok r s') ∨
    (producer? src s.context s.current v = .ok none ∧
      ∃ n, r = some n ∧ runConversion src visit (Conversion.makeLeaf v) s = .ok n s') := by
  simp only [Conversion.makeOperand, runConversion, EStateM.bind_eq_ok, EStateM.get_eq_ok,
    liftStop_eq_ok] at h
  obtain ⟨_, _, ⟨rfl, rfl⟩, p, _, ⟨hp, rfl⟩, h⟩ := h
  cases p with
  | some i =>
    obtain ⟨_, _, hvisit, h⟩ := EStateM.bind_eq_ok.1 h
    obtain ⟨rfl, rfl⟩ := EStateM.pure_eq_ok.1 h
    exact .inl ⟨i, hp, hvisit⟩
  | none =>
    obtain ⟨n, _, hleaf, h⟩ := EStateM.bind_eq_ok.1 h
    obtain ⟨rfl, rfl⟩ := EStateM.pure_eq_ok.1 h
    exact .inr ⟨hp, n, rfl, EStateM.bind_eq_ok.2 ⟨n, _, hleaf, EStateM.pure_eq_ok.2 ⟨rfl, rfl⟩⟩⟩

end Run

/-! ### Converting instructions -/

/-- A builder that remembers something about an instruction. -/
def remembered (s : Builder ω) (i : InstrId) (m : Memo) : Builder ω :=
  { s with memo := s.memo.setIfInBounds i m }

theorem memoOf_eq_ok {m : Memo} : memoOf i s = .ok m s' ↔ s.memo[i]? = some m ∧ s = s' := by
  simp only [memoOf, EStateM.bind_eq_ok, EStateM.get_eq_ok]
  constructor
  · rintro ⟨_, _, ⟨rfl, rfl⟩, h⟩
    cases hm : s.memo[i]? with
    | some m' =>
      rw [hm] at h
      obtain ⟨rfl, rfl⟩ := EStateM.pure_eq_ok.1 h
      exact ⟨rfl, rfl⟩
    | none =>
      rw [hm] at h
      exact absurd h EStateM.throw_ne_ok
  · rintro ⟨hm, rfl⟩
    exact ⟨_, _, ⟨rfl, rfl⟩, by simp only [hm, EStateM.pure_eq_ok, and_self]⟩

theorem memo_remembered {m : Memo} (hi : i < s.memo.size) (j : InstrId) :
    (s.remembered i m).memo[j]? = if i = j then some m else s.memo[j]? := by
  rw [remembered, Array.getElem?_setIfInBounds, if_pos hi]

theorem memo_remembered_of_ne {m : Memo} (hij : i ≠ j) :
    (s.remembered i m).memo[j]? = s.memo[j]? := by
  rw [remembered, Array.getElem?_setIfInBounds_ne hij]

/-- Beginning a conversion. -/
theorem keeps_remembered_inProgress (hi : s.memo[i]? = some .unseen) :
    Keeps keep s (s.remembered i .inProgress) := by
  have hne {j : InstrId} {m : Memo} (hj : s.memo[j]? = some m) (hm : m ≠ .unseen) : i ≠ j := by
    rintro rfl
    exact hm (Option.some.inj (hj.symm.trans hi))
  refine ⟨⟨rfl, .refl _, fun hj => ?_⟩, rfl, rfl, fun hj => ?_, fun h _ => h⟩
  · rwa [memo_remembered_of_ne (hne hj nofun)]
  · rwa [memo_remembered_of_ne (hne hj nofun)]

/-- Ending a conversion that was in progress. -/
theorem grows_remembered_converted {result : Conversion.Result}
    (hi : s.memo[i]? = some .inProgress) : s.Grows (s.remembered i (.converted result)) := by
  refine ⟨rfl, .refl _, fun {j _} hj => ?_⟩
  have hne : i ≠ j := by
    rintro rfl
    cases hj.symm.trans hi
  rwa [memo_remembered_of_ne hne]

/-- A whole conversion. -/
theorem Keeps.convert {result : Conversion.Result} (hi : s.memo[i]? = some .unseen)
    (h : Keeps keep (s.remembered i .inProgress) t) :
    t.memo[i]? = some .inProgress ∧ Keeps keep s (t.remembered i (.converted result)) := by
  have hbusy : t.memo[i]? = some .inProgress := by
    apply h.busy
    rw [memo_remembered (Array.getElem?_eq_some_iff.1 hi).1, if_pos rfl]
  have hkeeps := (keeps_remembered_inProgress hi).trans h
  refine ⟨hbusy, ⟨hkeeps.toGrows.trans (grows_remembered_converted hbusy), hkeeps.current,
    hkeeps.blocks, fun {j} hj => ?_, hkeeps.same⟩⟩
  have hne : i ≠ j := by
    rintro rfl
    cases hj.symm.trans hi
  rw [memo_remembered_of_ne hne]
  exact hkeeps.busy hj

/-- An instruction was converted before, or it is converted now. -/
theorem convert_eq_ok {conv : Converter ω} {fuel : Nat} {r : NodeRef}
    (h : convert conv src (fuel + 1) i s = .ok r s') :
    (∃ result, s.memo[i]? = some (.converted result) ∧ r = result.value ∧ s' = s) ∨
    (∃ result t, s.memo[i]? = some .unseen ∧
      runConversion src (convert conv src fuel) (conv src s.context i)
        (s.remembered i .inProgress) = .ok result t ∧
      r = result.value ∧ s' = t.remembered i (.converted result)) := by
  rw [convert, EStateM.bind_eq_ok] at h
  obtain ⟨m, _, hmemo, h⟩ := h
  obtain ⟨hm, rfl⟩ := memoOf_eq_ok.1 hmemo
  cases m with
  | inProgress => exact absurd h EStateM.throw_ne_ok
  | converted result =>
    obtain ⟨rfl, rfl⟩ := EStateM.pure_eq_ok.1 h
    exact .inl ⟨result, hm, rfl, rfl⟩
  | unseen =>
    simp only [remember, EStateM.bind_eq_ok, EStateM.modify_eq_ok, EStateM.get_eq_ok,
      EStateM.pure_eq_ok] at h
    obtain ⟨_, _, rfl, _, _, ⟨rfl, rfl⟩, result, t, hrun, _, _, rfl, rfl, rfl⟩ := h
    exact .inr ⟨result, t, hm, hrun, rfl, rfl⟩

/-! ### Putting nodes on the chain -/

/-- A builder in whose graph a node is followed by a chain. -/
def chained (s : Builder ω) (n : NodeId) (head : NodeRef) : Builder ω :=
  { s with graph := s.graph.updateNode n ({ · with chain := head }) }

theorem nodes_chained (s : Builder ω) (n m : NodeId) (head : NodeRef) :
    (s.chained n head).graph.nodes[m]? =
      if n = m then s.graph.nodes[m]?.map ({ · with chain := head }) else s.graph.nodes[m]? :=
  Array.getElem?_modify

theorem keeps_chained {node : Node ω} {head : NodeRef} (hn : s.graph.nodes[n]? = some node)
    (hkeep : ¬keep node) : Keeps keep s (s.chained n head) := by
  refine ⟨⟨rfl, ⟨rfl, rfl, fun {m node'} hm => ?_⟩, id⟩, rfl, rfl, id, fun {m node'} hm hk => ?_⟩
  · rw [nodes_chained, hm]
    split
    · exact ⟨head, rfl⟩
    · exact ⟨node'.chain, rfl⟩
  · rw [nodes_chained, hm, if_neg]
    rintro rfl
    obtain rfl := Option.some.inj (hn.symm.trans hm)
    exact hkeep hk

/-- A node goes in front of a chain if it is an operation of the block that has no node behind it
and does not start the chain. -/
theorem prepend_accepts {head r r' : NodeRef} (h : prepend i head r s = .ok r' s') :
    ∃ n node, r = some n ∧ r' = some n ∧ s.graph.nodes[n]? = some node ∧ node.block = s.current ∧
      node.kind = .inst ∧ node.chain = none ∧ head ≠ some n ∧ s' = s.chained n head := by
  simp only [prepend, EStateM.bind_eq_ok, EStateM.get_eq_ok, liftStop_eq_ok, liftFault_eq_ok] at h
  obtain ⟨_, _, ⟨rfl, rfl⟩, node, _, ⟨hnode, rfl⟩, h⟩ := h
  obtain ⟨n, rfl, hn⟩ := Graph.node_eq_ok.1 hnode
  split at h
  · exact absurd h EStateM.throw_ne_ok
  · next hkind =>
    split at h
    · exact absurd h EStateM.throw_ne_ok
    · next hfree =>
      simp only [EStateM.bind_eq_ok, EStateM.set_eq_ok, EStateM.pure_eq_ok] at h
      obtain ⟨_, _, rfl, rfl, rfl⟩ := h
      obtain ⟨hkind, hblock⟩ := not_or.1 hkind
      obtain ⟨hchain, hhead⟩ := not_or.1 hfree
      exact ⟨n, node, rfl, rfl, hn, not_not.1 hblock, not_not.1 hkind, by simpa using hchain,
        Ne.symm hhead, rfl⟩

theorem prepend_eq_ok {head r r' : NodeRef} (h : prepend i head r s = .ok r' s') :
    ∃ n node, r = some n ∧ r' = some n ∧ s.graph.nodes[n]? = some node ∧ node.block = s.current ∧
      s' = s.chained n head := by
  obtain ⟨n, node, hr, hr', hn, hblock, -, -, -, hs'⟩ := prepend_accepts h
  exact ⟨n, node, hr, hr', hn, hblock, hs'⟩

/-- A node that is not on a chain goes in front of it. -/
theorem linked_chained {node : Node ω} {head : NodeRef} {l : List NodeId}
    (hn : s.graph.nodes[n]? = some node) (hl : s.graph.Linked node.block head l) (hnew : n ∉ l) :
    (s.chained n head).graph.Linked node.block (some n) (n :: l) := by
  refine ⟨rfl, { node with chain := head }, ?_, rfl, hl.congr fun m hm node' hnode' _ => ?_⟩
  · rw [nodes_chained, if_pos rfl, hn]
    rfl
  · rw [nodes_chained, if_neg, hnode']
    rintro rfl
    exact hnew hm

/-- The nodes that an instruction chains go in front of the chain so far. -/
theorem foldlM_prepend_eq_ok {chain : List NodeRef} {head head' : NodeRef} {l : List NodeId}
    (h : chain.reverse.foldlM (prepend i) head s = .ok head' s')
    (hl : s.graph.Linked s.current head l) (hnew : ∀ n, some n ∈ chain → n ∉ l)
    (hnodup : chain.Nodup) :
    ∃ ns, chain = ns.map some ∧ s'.graph.Linked s.current head' (ns ++ l) ∧
      Keeps (·.block ≠ s.current) s s' ∧ s'.memo = s.memo := by
  induction chain generalizing head' s' with
  | nil =>
    obtain ⟨rfl, rfl⟩ := EStateM.pure_eq_ok.1 h
    exact ⟨[], rfl, hl, .refl s, rfl⟩
  | cons r chain ih =>
    rw [List.reverse_cons, List.foldlM_append, EStateM.bind_eq_ok] at h
    obtain ⟨head₁, t, hrest, hr⟩ := h
    obtain ⟨hr', hnodup⟩ := List.nodup_cons.1 hnodup
    obtain ⟨ns, rfl, hlinked, hkeeps, hmemo⟩ :=
      ih hrest (fun n hn => hnew n (List.mem_cons_of_mem _ hn)) hnodup
    simp only [List.foldlM_cons, List.foldlM_nil, bind_pure] at hr
    obtain ⟨n, node, rfl, rfl, hn, hb, rfl⟩ := prepend_eq_ok hr
    have hcurrent := hkeeps.current
    have hfresh : n ∉ ns ++ l := by
      rw [List.mem_append]
      rintro (hmem | hmem)
      · exact hr' (List.mem_map_of_mem hmem)
      · exact hnew n List.mem_cons_self hmem
    refine ⟨n :: ns, rfl, ?_, hkeeps.trans (keeps_chained hn fun hne => hne (hb.trans hcurrent)),
      hmemo⟩
    have hblock : node.block = s.current := hb.trans hcurrent
    exact hblock ▸ linked_chained hn (hblock ▸ hlinked) hfresh

end Builder

end Codegen
