import Codegen.Proofs.CycleSearch
import Codegen.Proofs.Growth
import Codegen.Proofs.WellFormed

/-!
# Graphs that pass the check

The check goes through the nodes, the chain of each block and the data edges, one after the other.
What it asks for can be said without it: a graph is well formed if its nodes, roots and operands are
where they belong, the chain of each block passes from the root through what the instructions with
effects put on it, and the data edges form no cycle. The check passes these graphs and no others,
and it never looks for a node that does not exist.

In a graph whose nodes only read nodes that were made before them, numbers decrease along the data
edges, so that there is no cycle. Graphs that are built are like this.

## Main definitions

* `Graph.Arranged`: every node belongs to a block and reads earlier nodes of the same block.
* `Graph.Recorded`: what the instructions with effects put on a chain, in program order.
* `Graph.Valid`: the graphs that pass the check, as far as they are built from earlier nodes.
* `Graph.WellFormed`: the graphs that pass the check.

## Main results

* `Graph.Arranged.not_transGen_reads`: the data edges form no cycle.
* `Graph.Valid.check_eq_ok`: a valid graph passes the check.
* `Graph.check_exact`: the check passes the well-formed graphs and no others.
-/

namespace Codegen

/-- Whether the instruction with a number keeps its order among instructions with effects. -/
def Func.hasEffects (f : Func) (i : InstrId) : Bool := f.instrs[i]?.any (·.hasEffects)

/-- One element is counted if and only if there is one position with the property. -/
theorem countP_eq_one {α : Type} {p : α → Bool} {l : List α} :
    l.countP p = 1 ↔ ∃ n : Nat, ∀ m : Nat, (∃ x, l[m]? = some x ∧ p x = true) ↔ m = n := by
  induction l with
  | nil =>
    refine iff_of_false (by simp) ?_
    rintro ⟨n, hn⟩
    simpa using (hn n).2 rfl
  | cons a l ih =>
    by_cases ha : p a = true
    · have hzero : l.countP p = 0 ↔ ∀ (m : Nat) (x : α), l[m]? = some x → p x ≠ true := by
        rw [List.countP_eq_zero]
        constructor
        · exact fun h m x hx => h x (List.mem_of_getElem? hx)
        · intro h x hx
          obtain ⟨m, hm⟩ := List.getElem?_of_mem hx
          exact h m x hm
      rw [List.countP_cons_of_pos ha, Nat.add_eq_right, hzero]
      constructor
      · intro h
        refine ⟨0, fun m => ?_⟩
        cases m with
        | zero => simp [ha]
        | succ m => simpa using h m
      · rintro ⟨n, hn⟩ m x hx hp
        have hfirst : 0 = n := (hn 0).1 ⟨a, rfl, ha⟩
        have hlater : m + 1 = n := (hn (m + 1)).1 ⟨x, hx, hp⟩
        omega
    · rw [List.countP_cons_of_neg ha, ih]
      constructor
      · rintro ⟨n, hn⟩
        refine ⟨n + 1, fun m => ?_⟩
        cases m with
        | zero => simp [ha]
        | succ m => simpa using hn m
      · rintro ⟨n, hn⟩
        cases n with
        | zero =>
          obtain ⟨x, hx, hp⟩ := (hn 0).2 rfl
          cases hx
          exact absurd hp ha
        | succ n => exact ⟨n, fun m => by simpa using hn (m + 1)⟩

namespace Graph

variable {ω : Type} {g : Graph ω} {f : Func} {b : BlockId} {blk : Graph.Block} {n m : NodeId}
  {node : Node ω} {r : NodeRef} {is : List InstrId} {es : List Effect} {l seen : List NodeId}

/-- Node `m` of block `b` is no root, so that other nodes of the block may read it. -/
def Offers (g : Graph ω) (b : BlockId) (m : NodeId) : Prop :=
  ∃ node, g.nodes[m]? = some node ∧ node.block = b ∧ node.kind ≠ .root

/-- Every node belongs to a block and reads earlier nodes of the same block. No block has a root
besides the one that it names. -/
structure Arranged (g : Graph ω) : Prop where
  block : ∀ {n : NodeId} {node : Node ω}, g.nodes[n]? = some node → node.block < g.blocks.size
  root : ∀ {n : NodeId} {node : Node ω} {blk : Graph.Block}, g.nodes[n]? = some node →
    node.kind = .root → g.blocks[node.block]? = some blk → blk.root = some n
  arg : ∀ {n : NodeId} {node : Node ω}, g.nodes[n]? = some node → ∀ r ∈ node.args,
    ∃ m, r = some m ∧ m < n ∧ g.Offers node.block m

/-- The instructions `is` have put `es` on the chain: each one with effects some nodes, in program
order. -/
inductive Recorded (f : Func) : List InstrId → List Effect → Prop
  | nil : Recorded f [] []
  | skip {i : InstrId} {ins : Instr} {is : List InstrId} {es : List Effect}
      (hi : f.instrs[i]? = some ins) (he : ins.hasEffects = false) (h : Recorded f is es) :
      Recorded f (i :: is) es
  | chain {i : InstrId} {ins : Instr} {ns : List NodeId} {is : List InstrId} {es : List Effect}
      (hi : f.instrs[i]? = some ins) (he : ins.hasEffects = true) (hns : ns ≠ [])
      (h : Recorded f is es) : Recorded f (i :: is) (⟨i, ns⟩ :: es)

/-- A block with its root, from which the chain passes through the nodes of its instructions, which
are operations and all different. -/
structure Threaded (g : Graph ω) (f : Func) (b : BlockId) (blk : Graph.Block) : Prop where
  recorded : Recorded f (f.instrsOf b) blk.effects
  root : ∃ n node, blk.root = some n ∧ g.nodes[n]? = some node ∧ node.block = b ∧
    node.kind = .root ∧ g.Linked b node.chain (blk.effects.flatMap (·.nodes))
  nodup : (blk.effects.flatMap (·.nodes)).Nodup
  inst : ∀ n ∈ blk.effects.flatMap (·.nodes), ∀ node, g.nodes[n]? = some node → node.kind = .inst

/-- A graph of a function that is arranged and has all blocks of the function, with their chains. -/
structure Valid (g : Graph ω) (f : Func) : Prop where
  arranged : g.Arranged
  size : g.blocks.size = f.blocks.size
  threaded : ∀ {b : BlockId} {blk : Graph.Block}, g.blocks[b]? = some blk → g.Threaded f b blk

/-- Node `n` is a root and belongs to block `b`. -/
def IsRoot (g : Graph ω) (b : BlockId) (n : NodeId) : Prop :=
  ∃ node, g.nodes[n]? = some node ∧ node.kind = .root ∧ node.block = b

/-- What is asked of a graph of a function. The numbers that nodes and blocks hold may lead
anywhere. -/
structure WellFormed (g : Graph ω) (f : Func) : Prop where
  /-- Every node belongs to a block. -/
  block : ∀ {n : NodeId} {node : Node ω}, g.nodes[n]? = some node → node.block < g.blocks.size
  /-- Every block has one root, which is the one that it names. -/
  root : ∀ {b : BlockId} {blk : Graph.Block}, g.blocks[b]? = some blk →
    ∃ n, blk.root = some n ∧ ∀ m, g.IsRoot b m ↔ m = n
  /-- Every operand is a node of the same block and no root. -/
  arg : ∀ {n : NodeId} {node : Node ω}, g.nodes[n]? = some node → ∀ r ∈ node.args,
    ∃ m, r = some m ∧ g.Offers node.block m
  /-- The instructions with effects, and no others, put nodes on the chain, in program order. -/
  effects : ∀ {b : BlockId} {blk : Graph.Block}, g.blocks[b]? = some blk →
    blk.effects.map (·.instr) = (f.instrsOf b).filter f.hasEffects ∧
      ∀ e ∈ blk.effects, e.nodes ≠ []
  /-- The chain of a block passes from the root through these nodes and ends. They are operations of
  the block and all different. -/
  chain : ∀ {b : BlockId} {blk : Graph.Block}, g.blocks[b]? = some blk →
    ∃ root, g.node blk.root = .ok root ∧
      g.Linked b root.chain (blk.effects.flatMap (·.nodes)) ∧
      (blk.effects.flatMap (·.nodes)).Nodup ∧
      ∀ n ∈ blk.effects.flatMap (·.nodes), ∀ node, g.nodes[n]? = some node → node.kind = .inst
  /-- The data edges form no cycle. -/
  acyclic : ∀ n, ¬Relation.TransGen g.Reads n n

/-! ### Nodes -/

theorem Arranged.lt_of_reads (h : g.Arranged) (hr : g.Reads n m) : m < n := by
  obtain ⟨node, hn, hm⟩ := hr
  obtain ⟨_, ⟨⟩, hlt, -⟩ := h.arg hn _ hm
  exact hlt

/-- Numbers decrease along data edges, so that these form no cycle. -/
theorem Arranged.not_transGen_reads (h : g.Arranged) (n : NodeId) :
    ¬Relation.TransGen g.Reads n n := by
  have hlt : ∀ m, Relation.TransGen g.Reads n m → m < n := by
    intro m hm
    induction hm with
    | single hr => exact h.lt_of_reads hr
    | tail _ hr ih => exact (h.lt_of_reads hr).trans ih
  exact fun hcycle => Nat.lt_irrefl n (hlt n hcycle)

theorem mem_numberedNodes : (n, node) ∈ g.numberedNodes ↔ g.nodes[n]? = some node :=
  mem_zip_range

theorem mem_layout : (b, blk) ∈ g.layout ↔ g.blocks[b]? = some blk := mem_zip_range

theorem checkArg_eq_ok : g.checkArg n b r = .ok () ↔ ∃ m, r = some m ∧ g.Offers b m := by
  unfold checkArg Offers
  cases r with
  | none => simp
  | some m =>
    cases hm : g.nodes[m]? with
    | none => simp [hm]
    | some a =>
      by_cases hb : a.block = b
      · by_cases hk : a.kind = .root <;> simp [hm, hb, hk]
      · simp [hm, hb]

/-- A node passes if it belongs to a block, is the root of that block if it is a root at all, and
its operands pass. -/
theorem checkNode_eq_ok : g.checkNode (n, node) = .ok () ↔
    (∃ blk, g.blocks[node.block]? = some blk ∧ (node.kind = .root → blk.root = some n)) ∧
      ∀ r ∈ node.args, ∃ m, r = some m ∧ g.Offers node.block m := by
  simp only [checkNode]
  cases hblk : g.blocks[node.block]? with
  | none => simp [Except.throw_ne_ok]
  | some blk =>
    by_cases hroot : node.kind = .root ∧ blk.root ≠ some n
    · simp [hroot, Except.bind_eq_ok, Except.throw_ne_ok]
    · have hnamed : node.kind = .root → blk.root = some n := fun hk =>
        by_contra fun hne => hroot ⟨hk, hne⟩
      simp only [if_neg hroot, Option.some.injEq, exists_eq_left', eq_true hnamed, true_and]
      exact Except.forM_eq_ok.trans (forall₂_congr fun _ _ => checkArg_eq_ok)

theorem flawed_ne_fault {flaw : GraphFlaw} {e : Fault} : flawed flaw ≠ .fault e :=
  Stop.ofCause_ne_fault

theorem checkNode_ne_fault {x : NodeId × Node ω} {e : Fault} :
    g.checkNode x ≠ .error (.fault e) := by
  intro hstop
  simp only [checkNode] at hstop
  split at hstop
  · exact flawed_ne_fault (Except.error.inj hstop)
  · split at hstop
    · exact flawed_ne_fault (Except.error.inj hstop)
    · obtain ⟨r, -, hstop⟩ := Except.exists_of_forM_eq_error hstop
      unfold checkArg at hstop
      split at hstop
      · exact flawed_ne_fault (Except.error.inj hstop)
      · split at hstop
        · exact flawed_ne_fault (Except.error.inj hstop)
        · split at hstop
          · exact flawed_ne_fault (Except.error.inj hstop)
          · cases hstop

theorem rootCount_eq_one : g.rootCount b = 1 ↔ ∃ n, ∀ m, g.IsRoot b m ↔ m = n := by
  rw [rootCount, countP_eq_one]
  simp [IsRoot]

/-! ### Chains -/

theorem checkEffects_eq_ok : checkEffects f is es = .ok () ↔ Recorded f is es := by
  induction is generalizing es with
  | nil =>
    cases es with
    | nil => exact iff_of_true rfl .nil
    | cons e es => exact iff_of_false nofun nofun
  | cons i is ih =>
    rw [checkEffects, Except.bind_eq_ok]
    simp only [liftFault_eq_ok, Func.instr_eq_ok]
    constructor
    · rintro ⟨ins, hi, h⟩
      split at h
      · next he => exact .skip hi (by simpa using he) (ih.1 h)
      · next he =>
        have he : ins.hasEffects = true := by simpa using he
        cases es with
        | nil => exact absurd h Except.throw_ne_ok
        | cons e es =>
          obtain ⟨j, ns⟩ := e
          by_cases hj : j = i
          · subst hj
            by_cases hns : ns = []
            · simp [hns, Except.bind_eq_ok, Except.throw_ne_ok] at h
            · exact .chain hi he hns (ih.1 (by simpa [hns] using h))
          · simp [hj, Except.bind_eq_ok, Except.throw_ne_ok] at h
    · intro h
      cases h with
      | skip hi he h => exact ⟨_, hi, by simpa [he] using ih.2 h⟩
      | chain hi he hns h => exact ⟨_, hi, by simpa [he, hns] using ih.2 h⟩

/-- Exactly the instructions with effects put something on the chain. -/
theorem Recorded.map_instr (h : Recorded f is es) : es.map (·.instr) = is.filter f.hasEffects := by
  induction h with
  | nil => rfl
  | skip hi he _ ih => simpa [Func.hasEffects, hi, he] using ih
  | chain hi he _ _ ih => simpa [Func.hasEffects, hi, he] using ih

theorem Recorded.lt_size (h : Recorded f is es) : ∀ i ∈ is, i < f.instrs.size := by
  induction h with
  | nil => simp
  | skip hi _ _ ih => exact List.forall_mem_cons.2 ⟨(Array.getElem?_eq_some_iff.1 hi).1, ih⟩
  | chain hi _ _ _ ih => exact List.forall_mem_cons.2 ⟨(Array.getElem?_eq_some_iff.1 hi).1, ih⟩

/-- What is recorded of instructions that exist. -/
theorem recorded_iff (his : ∀ i ∈ is, i < f.instrs.size) : Recorded f is es ↔
    es.map (·.instr) = is.filter f.hasEffects ∧ ∀ e ∈ es, e.nodes ≠ [] := by
  constructor
  · intro h
    refine ⟨h.map_instr, ?_⟩
    clear his
    induction h with
    | nil => simp
    | skip _ _ _ ih => exact ih
    | chain _ _ hns _ ih => exact List.forall_mem_cons.2 ⟨hns, ih⟩
  · induction is generalizing es with
    | nil =>
      rintro ⟨hmap, -⟩
      obtain rfl : es = [] := by simpa using hmap
      exact .nil
    | cons i is ih =>
      obtain ⟨hlt, hlater⟩ := List.forall_mem_cons.1 his
      have hi : f.instrs[i]? = some f.instrs[i] := Array.getElem?_eq_getElem hlt
      rintro ⟨hmap, hnodes⟩
      cases he : f.instrs[i].hasEffects with
      | false =>
        rw [List.filter_cons_of_neg (by simp [Func.hasEffects, hi, he])] at hmap
        exact .skip hi he (ih hlater ⟨hmap, hnodes⟩)
      | true =>
        rw [List.filter_cons_of_pos (by simp [Func.hasEffects, hi, he])] at hmap
        obtain ⟨⟨_, ns⟩, es, rfl, rfl, hes⟩ := List.map_eq_cons_iff.1 hmap
        obtain ⟨hns, hnodes⟩ := List.forall_mem_cons.1 hnodes
        exact .chain hi he hns (ih hlater ⟨hes, hnodes⟩)

/-- Where no node follows, a chain passes if it has to end there. -/
theorem checkChainFrom_none_eq_ok : g.checkChainFrom b seen l none = .ok () ↔ l = [] := by
  cases l with
  | nil => exact iff_of_true rfl rfl
  | cons w l => exact iff_of_false (fun h => by cases h) (List.cons_ne_nil w l)

/-- A node passes if it is an operation of the block that was not seen before and the one that has
to come, and if the chain behind it passes. -/
theorem checkChainFrom_some_eq_ok : g.checkChainFrom b seen l (some n) = .ok () ↔
    ∃ node l', g.nodes[n]? = some node ∧ node.block = b ∧ node.kind = .inst ∧ n ∉ seen ∧
      l = n :: l' ∧ g.checkChainFrom b (n :: seen) l' node.chain = .ok () := by
  rw [checkChainFrom]
  cases hn : g.nodes[n]? with
  | none => simp
  | some node =>
    by_cases hb : node.block = b
    · by_cases hk : node.kind = .inst
      · by_cases hs : n ∈ seen
        · simp [hb, hk, hs]
        · cases l with
          | nil => simp [hb, hk, hs]
          | cons w l => by_cases hw : w = n <;> simp [hb, hk, hs, hw]
      · simp [hb, hk]
    · simp [hb]

/-- A chain passes if it leads through the given nodes, which are operations that are all different
and were not seen before. -/
theorem checkChainFrom_eq_ok : g.checkChainFrom b seen l r = .ok () ↔
    g.Linked b r l ∧ l.Nodup ∧ (∀ n ∈ l, n ∉ seen) ∧
      ∀ n ∈ l, ∀ node, g.nodes[n]? = some node → node.kind = .inst := by
  induction l generalizing r seen with
  | nil =>
    cases r with
    | none => simp [checkChainFrom_none_eq_ok, Linked]
    | some n => simp [checkChainFrom_some_eq_ok, Linked]
  | cons w l ih =>
    cases r with
    | none => simp [checkChainFrom_none_eq_ok, Linked]
    | some n =>
      rw [checkChainFrom_some_eq_ok]
      constructor
      · rintro ⟨node, _, hn, hb, hk, hs, ⟨⟩, hchain⟩
        obtain ⟨hl, hnodup, hseen, hinst⟩ := ih.1 hchain
        refine ⟨⟨rfl, node, hn, hb, hl⟩, List.nodup_cons.2 ⟨fun hmem => ?_, hnodup⟩,
          List.forall_mem_cons.2 ⟨hs, fun m hm hmem => ?_⟩,
          List.forall_mem_cons.2 ⟨fun node' hnode' => ?_, hinst⟩⟩
        · exact hseen _ hmem List.mem_cons_self
        · exact hseen m hm (List.mem_cons_of_mem _ hmem)
        · exact Option.some.inj (hn.symm.trans hnode') ▸ hk
      · rintro ⟨⟨⟨⟩, node, hn, hb, hl⟩, hnodup, hseen, hinst⟩
        obtain ⟨hnot, hnodup⟩ := List.nodup_cons.1 hnodup
        obtain ⟨hs, hseen⟩ := List.forall_mem_cons.1 hseen
        obtain ⟨hk, hinst⟩ := List.forall_mem_cons.1 hinst
        refine ⟨node, l, hn, hb, hk node hn, hs, rfl,
          ih.2 ⟨hl, hnodup, fun m hm hmem => ?_, hinst⟩⟩
        rcases List.mem_cons.1 hmem with rfl | hmem
        · exact hnot hm
        · exact hseen m hm hmem

/-- The chain of a block only depends on the nodes of the block. -/
theorem Threaded.congr {g' : Graph ω} (h : g.Threaded f b blk)
    (hg : ∀ (n : NodeId) (node : Node ω), g.nodes[n]? = some node → node.block = b →
      g'.nodes[n]? = some node) : g'.Threaded f b blk := by
  obtain ⟨n, node, hroot, hn, hb, hkind, hlinked⟩ := h.root
  refine ⟨h.recorded, ⟨n, node, hroot, hg n node hn hb, hb, hkind, ?_⟩, h.nodup,
    fun m hm node' hnode' => ?_⟩
  · exact hlinked.congr fun m _ node' hm hb' => hg m node' hm hb'
  · obtain ⟨node₀, hm₀, hb₀⟩ := hlinked.exists_node m hm
    obtain rfl := Option.some.inj ((hg m node₀ hm₀ hb₀).symm.trans hnode')
    exact h.inst m hm node₀ hm₀

/-- The chain of a block passes through what its instructions put on it, in program order. -/
theorem Threaded.chainOrder_eq_ok (h : g.Threaded f b blk) (hb : g.blocks[b]? = some blk) :
    g.chainOrder b = .ok (blk.effects.flatMap (·.nodes)) := by
  obtain ⟨n, node, hroot, hn, -, -, hlinked⟩ := h.root
  have hblock : g.block b = .ok blk := by rw [Graph.block, hb]
  simp only [chainOrder, Except.bind_eq_ok]
  exact ⟨blk, hblock, node, node_eq_ok.2 ⟨n, hroot, hn⟩,
    hlinked.chainFrom_eq_ok (hlinked.length_le h.nodup)⟩

theorem checkChain_eq_ok {fblk : Codegen.Block} (hb : f.blocks[b]? = some fblk) :
    g.checkChain f b blk = .ok () ↔ Recorded f (f.instrsOf b) blk.effects ∧
      ∃ root, g.node blk.root = .ok root ∧
        g.Linked b root.chain (blk.effects.flatMap (·.nodes)) ∧
        (blk.effects.flatMap (·.nodes)).Nodup ∧
        ∀ n ∈ blk.effects.flatMap (·.nodes), ∀ node, g.nodes[n]? = some node →
          node.kind = .inst := by
  simp only [checkChain, Except.bind_eq_ok, liftFault_eq_ok, Func.block_eq_ok, hb,
    Option.some.injEq, exists_eq_left', checkChainFrom_eq_ok, ← Func.instrs_eq_instrsOf hb,
    ← checkEffects_eq_ok, List.not_mem_nil, not_false_eq_true, implies_true, true_and]
  exact Unique.exists_iff

theorem checkBlock_eq_ok : g.checkBlock f (b, blk) = .ok () ↔
    g.rootCount b = 1 ∧ g.checkChain f b blk = .ok () := by
  simp only [checkBlock]
  by_cases hcount : g.rootCount b = 1
  · cases g.checkChain f b blk <;> simp [hcount, pure, Except.pure, Except.throw_ne_ok]
  · simp [hcount, Except.bind_eq_ok, Except.throw_ne_ok]

theorem checkEffects_ne_fault {e : Fault} (his : ∀ i ∈ is, i < f.instrs.size) :
    checkEffects f is es ≠ .error (.fault e) := by
  induction is generalizing es with
  | nil =>
    cases es with
    | nil => exact nofun
    | cons e es => exact fun hstop => flawed_ne_fault (Except.error.inj hstop)
  | cons i is ih =>
    obtain ⟨hlt, his⟩ := List.forall_mem_cons.1 his
    intro hstop
    rw [checkEffects, Except.bind_eq_error] at hstop
    rcases hstop with hstop | ⟨ins, -, hstop⟩
    · have hi : f.instr i = .ok f.instrs[i] := Func.instr_eq_ok.2 (Array.getElem?_eq_getElem hlt)
      cases hi.symm.trans (liftFault_eq_fault.1 hstop)
    · split at hstop
      · exact ih his hstop
      · cases es with
        | nil => exact flawed_ne_fault (Except.error.inj hstop)
        | cons e es =>
          simp only at hstop
          split at hstop
          · exact flawed_ne_fault (Except.error.inj hstop)
          · split at hstop
            · exact flawed_ne_fault (Except.error.inj hstop)
            · exact ih his hstop

theorem checkChainFrom_ne_fault {e : Fault} : g.checkChainFrom b seen l r ≠ .error (.fault e) := by
  intro hstop
  fun_induction checkChainFrom g b seen l r with
  | case1 => cases hstop
  | case9 _ _ _ _ _ _ _ _ _ _ ih => exact ih hstop
  | _ => exact flawed_ne_fault (Except.error.inj hstop)

theorem checkChain_ne_fault {e : Fault} {fblk : Codegen.Block} {root : Node ω}
    (hb : f.blocks[b]? = some fblk) (his : ∀ i ∈ f.instrsOf b, i < f.instrs.size)
    (hroot : g.node blk.root = .ok root) : g.checkChain f b blk ≠ .error (.fault e) := by
  intro hstop
  have hblock : f.block b = .ok fblk := Func.block_eq_ok.2 hb
  simp only [checkChain, Except.bind_eq_error, liftFault_eq_fault, hblock, liftFault_eq_ok,
    Except.ok.injEq, exists_eq_left', reduceCtorEq, false_or, hroot] at hstop
  rcases hstop with hstop | ⟨-, -, hstop⟩
  · exact checkEffects_ne_fault (Func.instrs_eq_instrsOf hb ▸ his) hstop
  · exact checkChainFrom_ne_fault hstop

theorem checkBlock_eq_fault {e : Fault} : g.checkBlock f (b, blk) = .error (.fault e) ↔
    g.rootCount b = 1 ∧ g.checkChain f b blk = .error (.fault e) := by
  simp only [checkBlock]
  by_cases hcount : g.rootCount b = 1
  · cases g.checkChain f b blk with
    | ok u => simp [hcount, pure, Except.pure]
    | error stop =>
      cases stop <;> simp [hcount, Stop.within, throw, throwThe, MonadExceptOf.throw]
  · simp [hcount, flawed_ne_fault, throw, throwThe, MonadExceptOf.throw, bind, Except.bind]

/-! ### Graphs -/

theorem check_eq_ok : g.check f = .ok () ↔
    (∀ (n : NodeId) (node : Node ω), g.nodes[n]? = some node → g.checkNode (n, node) = .ok ()) ∧
    (∀ (b : BlockId) (blk : Graph.Block), g.blocks[b]? = some blk →
      g.rootCount b = 1 ∧ g.checkChain f b blk = .ok ()) ∧
    g.checkAcyclic = .ok () := by
  have hnodes : g.numberedNodes.forM g.checkNode = .ok () ↔ ∀ (n : NodeId) (node : Node ω),
      g.nodes[n]? = some node → g.checkNode (n, node) = .ok () := by
    simp only [Except.forM_eq_ok, Prod.forall, mem_numberedNodes]
  have hblocks : g.layout.forM (g.checkBlock f) = .ok () ↔ ∀ (b : BlockId) (blk : Graph.Block),
      g.blocks[b]? = some blk → g.rootCount b = 1 ∧ g.checkChain f b blk = .ok () := by
    simp only [Except.forM_eq_ok, Prod.forall, mem_layout, checkBlock_eq_ok]
  simp only [check, Except.bind_eq_ok, ← hnodes, ← hblocks]
  exact Unique.exists_iff.trans (and_congr_right fun _ => Unique.exists_iff)

/-- The only root of a block is the one that it names. -/
theorem exists_root_of_checkNode
    (hnodes : ∀ (n : NodeId) (node : Node ω), g.nodes[n]? = some node →
      g.checkNode (n, node) = .ok ())
    (hb : g.blocks[b]? = some blk) (hcount : g.rootCount b = 1) :
    ∃ n, blk.root = some n ∧ ∀ m, g.IsRoot b m ↔ m = n := by
  obtain ⟨n, hn⟩ := rootCount_eq_one.1 hcount
  obtain ⟨node, hnode, hkind, rfl⟩ := (hn n).2 rfl
  obtain ⟨⟨blk', hb', hnamed⟩, -⟩ := checkNode_eq_ok.1 (hnodes n node hnode)
  obtain rfl := Option.some.inj (hb.symm.trans hb')
  exact ⟨n, hnamed hkind, hn⟩

theorem argsExist_of_checkNode
    (hnodes : ∀ (n : NodeId) (node : Node ω), g.nodes[n]? = some node →
      g.checkNode (n, node) = .ok ()) : g.ArgsExist := by
  intro n node hn r hr
  obtain ⟨m, rfl, _, hm, -⟩ := (checkNode_eq_ok.1 (hnodes n node hn)).2 r hr
  exact ⟨m, (Array.getElem?_eq_some_iff.1 hm).1, rfl⟩

section Exact

variable (hsize : g.blocks.size = f.blocks.size)

include hsize

theorem exists_block (hb : g.blocks[b]? = some blk) : ∃ fblk, f.blocks[b]? = some fblk :=
  ⟨_, Array.getElem?_eq_getElem (hsize ▸ (Array.getElem?_eq_some_iff.1 hb).1)⟩

/-- The check passes the well-formed graphs and no others. -/
theorem check_eq_ok_iff_wellFormed (hinstrs : ∀ b, ∀ i ∈ f.instrsOf b, i < f.instrs.size) :
    g.check f = .ok () ↔ g.WellFormed f := by
  rw [check_eq_ok]
  constructor
  · rintro ⟨hnodes, hblocks, hacyclic⟩
    have hargs := argsExist_of_checkNode hnodes
    refine ⟨fun hn => ?_, fun hb => exists_root_of_checkNode hnodes hb (hblocks _ _ hb).1,
      fun hn => (checkNode_eq_ok.1 (hnodes _ _ hn)).2, fun hb => ?_, fun hb => ?_, ?_⟩
    · obtain ⟨⟨blk, hblk, -⟩, -⟩ := checkNode_eq_ok.1 (hnodes _ _ hn)
      exact (Array.getElem?_eq_some_iff.1 hblk).1
    · obtain ⟨fblk, hfb⟩ := exists_block hsize hb
      exact (recorded_iff (hinstrs _)).1 ((checkChain_eq_ok hfb).1 (hblocks _ _ hb).2).1
    · obtain ⟨fblk, hfb⟩ := exists_block hsize hb
      exact ((checkChain_eq_ok hfb).1 (hblocks _ _ hb).2).2
    · rcases checkAcyclic_cases hargs with ⟨-, hnone⟩ | ⟨text, n, hstop, -⟩
      · exact hnone
      · cases hacyclic.symm.trans hstop
  · intro h
    refine ⟨fun n node hn => checkNode_eq_ok.2 ⟨?_, h.arg hn⟩, fun b blk hb => ⟨?_, ?_⟩, ?_⟩
    · have hb := Array.getElem?_eq_getElem (h.block hn)
      refine ⟨_, hb, fun hkind => ?_⟩
      obtain ⟨m, hroot, hm⟩ := h.root hb
      exact hroot.trans (congrArg some ((hm n).1 ⟨node, hn, hkind, rfl⟩).symm)
    · obtain ⟨n, -, hn⟩ := h.root hb
      exact rootCount_eq_one.2 ⟨n, hn⟩
    · obtain ⟨fblk, hfb⟩ := exists_block hsize hb
      exact (checkChain_eq_ok hfb).2 ⟨(recorded_iff (hinstrs b)).2 (h.effects hb), h.chain hb⟩
    · have hargs : g.ArgsExist := by
        intro n node hn r hr
        obtain ⟨m, rfl, _, hm, -⟩ := h.arg hn r hr
        exact ⟨m, (Array.getElem?_eq_some_iff.1 hm).1, rfl⟩
      rcases checkAcyclic_cases hargs with ⟨hok, -⟩ | ⟨-, n, -, hcycle⟩
      · exact hok
      · exact absurd hcycle (h.acyclic n)

/-- The check looks for no block, instruction or node that does not exist. -/
theorem check_ne_fault (hinstrs : ∀ b, ∀ i ∈ f.instrsOf b, i < f.instrs.size) (e : Fault) :
    g.check f ≠ .error (.fault e) := by
  intro hstop
  rw [check, Except.bind_eq_error] at hstop
  rcases hstop with hstop | ⟨_, hnodes, hstop⟩
  · obtain ⟨n, -, hn⟩ := Except.exists_of_forM_eq_error hstop
    exact checkNode_ne_fault hn
  · have hnodes : ∀ (n : NodeId) (node : Node ω), g.nodes[n]? = some node →
        g.checkNode (n, node) = .ok () := fun n node hn =>
      Except.forM_eq_ok.1 hnodes (n, node) (mem_numberedNodes.2 hn)
    rcases Except.bind_eq_error.1 hstop with hstop | ⟨_, -, hstop⟩
    · obtain ⟨⟨b, blk⟩, hb, hstop⟩ := Except.exists_of_forM_eq_error hstop
      have hb := mem_layout.1 hb
      obtain ⟨hcount, hstop⟩ := checkBlock_eq_fault.1 hstop
      obtain ⟨fblk, hfb⟩ := exists_block hsize hb
      obtain ⟨n, hroot, hn⟩ := exists_root_of_checkNode hnodes hb hcount
      obtain ⟨node, hnode, -⟩ := (hn n).2 rfl
      exact checkChain_ne_fault hfb (hinstrs b) (node_eq_ok.2 ⟨n, hroot, hnode⟩) hstop
    · rcases checkAcyclic_cases (argsExist_of_checkNode hnodes) with ⟨hok, -⟩ | ⟨text, n, herr, -⟩
      · cases hok.symm.trans hstop
      · exact Stop.ofCause_ne_fault (Except.error.inj (herr.symm.trans hstop))

end Exact

/-- A valid graph is well formed. -/
theorem Valid.wellFormed (h : g.Valid f) : g.WellFormed f where
  block := h.arranged.block
  root hb := by
    obtain ⟨n, node, hn, hnode, hblock, hkind, -⟩ := (h.threaded hb).root
    refine ⟨n, hn, fun m => ⟨?_, ?_⟩⟩
    · rintro ⟨node', hm, hkind', rfl⟩
      exact Option.some.inj ((h.arranged.root hm hkind' hb).symm.trans hn)
    · rintro rfl
      exact ⟨node, hnode, hkind, hblock⟩
  arg hn r hr := by
    obtain ⟨m, hm, -, hoffers⟩ := h.arranged.arg hn r hr
    exact ⟨m, hm, hoffers⟩
  effects hb := (recorded_iff (h.threaded hb).recorded.lt_size).1 (h.threaded hb).recorded
  chain hb := by
    obtain ⟨n, node, hn, hnode, -, -, hlinked⟩ := (h.threaded hb).root
    exact ⟨node, node_eq_ok.2 ⟨n, hn, hnode⟩, hlinked, (h.threaded hb).nodup, (h.threaded hb).inst⟩
  acyclic := h.arranged.not_transGen_reads

/-- A valid graph passes the check. -/
theorem Valid.check_eq_ok (h : g.Valid f) : g.check f = .ok () := by
  refine (check_eq_ok_iff_wellFormed h.size fun b i hi => ?_).2 h.wellFormed
  by_cases hb : b < g.blocks.size
  · exact (h.threaded (Array.getElem?_eq_getElem hb)).recorded.lt_size i hi
  · have hnone : f.blocks[b]? = none := by simpa [h.size] using hb
    simp [Func.instrsOf, hnone] at hi

/-- The check of a graph against a function with the same blocks, whatever its nodes, roots, chains
and records are, ends without a fault and passes if and only if the graph is well formed. Each
search for a cycle ends before its steps run out. -/
theorem check_exact (hf : f.Drafted) (hsize : g.blocks.size = f.blocks.size) :
    (g.check f = .ok () ↔ g.WellFormed f) ∧
      (∀ e, g.check f ≠ .error (.fault e)) ∧
      ∀ (s s' : Search) (n : NodeId), s.colours.size = g.nodes.size → s.stack = [] →
        s.colours[n]? = some .white → (s.enter g n).run g g.searchSteps = .ok s' →
        s'.stack = [] := by
  have hinstrs (b : BlockId) : ∀ i ∈ f.instrsOf b, i < f.instrs.size := by
    intro i hi
    obtain ⟨op, hop⟩ := Option.isSome_iff_exists.1
      (hf.coherent.isSome_opOf (hf.coherent.mem_instrsOf.1 hi))
    exact Func.lt_size_of_opOf hop
  refine ⟨check_eq_ok_iff_wellFormed hsize hinstrs, check_ne_fault hsize hinstrs, ?_⟩
  intro s s' n hcolours hstack hn hrun
  refine Search.stack_eq_nil_of_run ?_ hrun
  rw [Search.work_enter hn]
  exact Search.work_le_searchSteps hcolours hstack

/-- A function that doubles a number from memory. -/
def doubling : Func :=
  (Func.sampleStart.assemble [] [[.load 2 1, .binary .add 2 2 2, .ret (some 3)]]).getD
    Func.sampleStart

theorem built_doubling : doubling.Built := Func.built_assembled _ _

/-- A graph of this function, in which the load reads the given nodes. -/
def doublingGraph (operands : List NodeRef) : Graph String where
  nodes := #[{ kind := .root, block := 0, chain := some 1 },
    { kind := .inst, block := 0, chain := some 3, args := operands },
    { kind := .inst, block := 0, args := [some 1, some 1] },
    { kind := .inst, block := 0, args := [some 2] }]
  blocks := #[
    { name := "", root := some 0, preds := [], succs := [], effects := [⟨0, [1]⟩, ⟨2, [3]⟩] }]

/-- A load without operands passes. If it reads the sum that is made from it, there is a cycle. -/
theorem check_exact_samples :
    (doublingGraph []).WellFormed doubling ∧ ¬(doublingGraph [some 2]).WellFormed doubling ∧
      (∀ e, (doublingGraph [some 2]).check doubling ≠ .error (.fault e)) ∧
      ∀ s', ((⟨#[.white, .white, .white, .white], []⟩ : Search).enter (doublingGraph []) 3).run
        (doublingGraph []) (doublingGraph []).searchSteps = .ok s' → s'.stack = [] := by
  obtain ⟨hplain, -, hends⟩ := check_exact (g := doublingGraph []) built_doubling.drafted rfl
  obtain ⟨hknot, hfault, -⟩ := check_exact (g := doublingGraph [some 2]) built_doubling.drafted rfl
  refine ⟨hplain.1 (by decide +kernel), fun h => ?_, hfault, fun s' => hends _ _ _ rfl rfl rfl⟩
  have hpass : (doublingGraph [some 2]).check doubling = .ok () := hknot.2 h
  revert hpass
  decide +kernel

end Graph

end Codegen
