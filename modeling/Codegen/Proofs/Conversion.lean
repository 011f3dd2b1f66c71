import Codegen.X86.Conversion
import Codegen.Proofs.Growth
import Codegen.Proofs.Selection

/-!
# What an instruction is converted to

The conversion of an instruction asks for nodes one after the other, and for an operand that is
defined in the same block another instruction is converted first. What has been built when it ends
can be described without saying in which order: the node of the instruction reads the nodes of its
operands, and the operands are what the conversions of their instructions ended with, or leaves.

## Main definitions

* `X86.Leaf`, `X86.Denotes`: the nodes that stand for a value.
* `X86.Converted`: what the conversion of an operation ends with.
* `X86.Sound`: a builder in which every conversion that has ended is described.

## Main results

* `X86.converter_eq_ok`: a conversion leaves a builder sound and ends with what is described.
* `X86.visits_convert`: the same for an instruction that may have been converted before.
-/

namespace Codegen.X86

variable {src : Source} {c : Context} {g g' : Graph Opcode} {s s' t : Builder Opcode} {b : BlockId}
  {i j : InstrId} {v : ValueId} {n : NodeId} {r : NodeRef} {op : Operation}
  {result : Conversion.Result}

/-- A leaf of block `b` that stands for a value, wherever that is defined. -/
inductive Leaf (src : Source) (g : Graph Opcode) (b : BlockId) (v : ValueId) : NodeRef → Prop
  /-- A value that lives in a register and is no address. -/
  | reg {n : NodeId} (hv : src.func.InRegister v)
      (ha : ∀ j, src.func.values[v]? = some (.result j) → src.func.isAlloca j = false)
      (hn : g.Has n b (.vreg (src.func.regOf v)) []) : Leaf src g b v (some n)
  /-- A constant. -/
  | imm {n : NodeId} {x : Value} {t : TypeId} {bits : Nat} (hx : src.func.values[v]? = some x)
      (hu : Unproduced src.func v x) (ht : src.func.valueType v = .ok t)
      (hbits : src.types.intBits t = .ok bits) (hn : g.Has n b (.imm x.payload bits) []) :
      Leaf src g b v (some n)

/-- A node that stands for a value in block `b`. -/
inductive Denotes (src : Source) (s : Builder Opcode) (b : BlockId) (v : ValueId) : NodeRef → Prop
  /-- A value that is defined in the block is the node of its instruction. -/
  | produced {j : InstrId} {result : Conversion.Result}
      (hv : src.func.values[v]? = some (.result j))
      (hj : src.func.blockOf j = some b) (ha : src.func.isAlloca j = false)
      (hm : s.memo[j]? = some (.converted result)) : Denotes src s b v result.value
  /-- Any other value is a leaf. -/
  | leaf {r : NodeRef} (hr : Leaf src s.graph b v r)
      (helse : ∀ j, src.func.values[v]? = some (.result j) → src.func.blockOf j ≠ some b) :
      Denotes src s b v r

/-- The operands of a phi for what comes in from a predecessor: a leaf for the value, and the label.
-/
inductive Incoming (src : Source) (g : Graph Opcode) (b : BlockId)
    (incoming : List (ValueId × BlockId)) (p : BlockId) : List NodeRef → Prop
  | mk {v : ValueId} {r : NodeRef} {m : NodeId} (hfind : incoming.find? (·.2 == p) = some (v, p))
      (hr : Leaf src g b v r) (hm : g.Has m b (.block (p + 1) p) []) :
      Incoming src g b incoming p [r, some m]

/-- What the conversion of an operation ends with, as the operation of instruction `i` of block `b`.
-/
inductive Converted (src : Source) (s : Builder Opcode) (b : BlockId) (i : InstrId) :
    Operation → Conversion.Result → Prop
  | alloca {t e : TypeId} {k : UInt64} {a : UInt32} : Converted src s b i (.alloca t e k a) {}
  | phi {t : TypeId} {incoming : List (ValueId × BlockId)} {args : List (List NodeRef)} {n : NodeId}
      (hargs : List.Forall₂ (Incoming src s.graph b incoming) (src.func.predsOf b) args)
      (hn : s.graph.Has n b (.inst .phi) args.flatten) :
      Converted src s b i (.phi t incoming) (.chained n)
  | load {t : TypeId} {addr : ValueId} {j : InstrId} {m n : NodeId} (ht : src.types.isInt t 32)
      (haddr : src.func.values[addr]? = some (.result j)) (hj : src.func.isAlloca j = true)
      (hm : s.graph.Has m b (.slot (src.func.slotOf j)) [])
      (hn : s.graph.Has n b (.inst .movrm32) [some m]) :
      Converted src s b i (.load t addr) (.chained n)
  | store {w addr : ValueId} {j : InstrId} {m n : NodeId} {r : NodeRef} {isConst : Bool}
      (hw : src.isWord w = true) (haddr : src.func.values[addr]? = some (.result j))
      (hj : src.func.isAlloca j = true) (hm : s.graph.Has m b (.slot (src.func.slotOf j)) [])
      (hr : Denotes src s b w r)
      (hn : s.graph.Has n b (.inst (if isConst then .movmi32 else .movmr32)) [some m, r]) :
      Converted src s b i (.store w addr) (.chained n)
  | binary {op : BinaryOp} {t : TypeId} {x y : ValueId} {rr ri : Opcode} {r q : NodeRef}
      {n : NodeId} {isConst : Bool} (hop : binaryOpcodes op = some (rr, ri))
      (ht : src.types.isInt t 32)
      (hr : Denotes src s b x r) (hq : Denotes src s b y q)
      (hn : s.graph.Has n b (.inst (if isConst then ri else rr)) [r, q]) :
      Converted src s b i (.binary op t x y) (.unchained n)
  | icmp {p : Predicate} {t : TypeId} {x y : ValueId} {cmp : Comparison} {r q : NodeRef}
      {n : NodeId} {isConst : Bool} (hcmp : comparison src s.context i p x y = .ok cmp)
      (hr : Denotes src s b cmp.x r) (hq : Denotes src s b cmp.y q)
      (hn : s.graph.Has n b (.inst (if isConst then .cmpri32 else .cmprr32)) [r, q]) :
      Converted src s b i (.icmp p t x y) (.unchained n)
  | br {target : BlockId} {m n : NodeId} (hm : s.graph.Has m b (.block (target + 1) target) [])
      (hn : s.graph.Has n b (.inst .jmp) [some m]) : Converted src s b i (.br target) (.chained n)
  /-- The flags come from the comparison, which is in the same block. -/
  | condBr {cond x y : ValueId} {l e : BlockId} {j : InstrId} {p : Predicate} {t : TypeId}
      {cmp : Comparison} {result : Conversion.Result} {m n m' n' : NodeId}
      (hcond : src.func.values[cond]? = some (.result j)) (hj : src.func.blockOf j = some b)
      (hop : src.func.opOf j = some (.icmp p t x y))
      (hcmp : comparison src s.context j p x y = .ok cmp)
      (hresult : s.memo[j]? = some (.converted result)) (hm : s.graph.Has m b (.block (l + 1) l) [])
      (hn : s.graph.Has n b (.inst cmp.jump) [result.value, some m])
      (hm' : s.graph.Has m' b (.block (e + 1) e) []) (hn' : s.graph.Has n' b (.inst .jmp) [some m'])
      (hlt : n < n') : Converted src s b i (.condBr cond l e) ⟨none, [some n, some n']⟩
  | ret {w : ValueId} {r : NodeRef} {n : NodeId} (hw : src.isWord w = true)
      (hr : Denotes src s b w r) (hn : s.graph.Has n b (.inst .ret) [r]) :
      Converted src s b i (.ret (some w)) (.chained n)

/-! ### Descriptions stay true -/

theorem Leaf.mono (h : Leaf src g b v r) (hg : g.Grows g') : Leaf src g' b v r := by
  cases h with
  | reg hv ha hn => exact .reg hv ha (hn.mono hg)
  | imm hx hu ht hbits hn => exact .imm hx hu ht hbits (hn.mono hg)

theorem Leaf.made (h : Leaf src g b v r) : g.Made r := by
  cases h with
  | reg _ _ hn | imm _ _ _ _ hn => exact hn.made

theorem Denotes.mono (h : Denotes src s b v r) (hg : s.Grows s') : Denotes src s' b v r := by
  cases h with
  | produced hv hj ha hm => exact .produced hv hj ha (hg.memo hm)
  | leaf hr helse => exact .leaf (hr.mono hg.graph) helse

theorem Incoming.mono {incoming : List (ValueId × BlockId)} {p : BlockId} {args : List NodeRef}
    (h : Incoming src g b incoming p args) (hg : g.Grows g') :
    Incoming src g' b incoming p args := by
  cases h with
  | mk hfind hr hm => exact .mk hfind (hr.mono hg) (hm.mono hg)

theorem Converted.mono (h : Converted src s b i op result) (hg : s.Grows s') :
    Converted src s' b i op result := by
  cases h with
  | alloca => exact .alloca
  | phi hargs hn => exact .phi (hargs.imp fun _ _ h => h.mono hg.graph) (hn.mono hg.graph)
  | load ht haddr hj hm hn => exact .load ht haddr hj (hm.mono hg.graph) (hn.mono hg.graph)
  | store hw haddr hj hm hr hn =>
    exact .store hw haddr hj (hm.mono hg.graph) (hr.mono hg) (hn.mono hg.graph)
  | binary hop ht hr hq hn => exact .binary hop ht (hr.mono hg) (hq.mono hg) (hn.mono hg.graph)
  | icmp hcmp hr hq hn =>
    exact .icmp (hg.context ▸ hcmp) (hr.mono hg) (hq.mono hg) (hn.mono hg.graph)
  | br hm hn => exact .br (hm.mono hg.graph) (hn.mono hg.graph)
  | condBr hcond hj hop hcmp hresult hm hn hm' hn' hlt =>
    exact .condBr hcond hj hop (hg.context ▸ hcmp) (hg.memo hresult) (hm.mono hg.graph)
      (hn.mono hg.graph) (hm'.mono hg.graph) (hn'.mono hg.graph) hlt
  | ret hw hr hn => exact .ret hw (hr.mono hg) (hn.mono hg.graph)

/-- A conversion ends with nodes that have been made. -/
theorem Converted.lt_size (h : Converted src s b i op result)
    (hn : result.value = some n ∨ some n ∈ result.chain) : n < s.graph.nodes.size := by
  cases h with
  | alloca => simp at hn
  | phi _ hm | load _ _ _ _ hm | store _ _ _ _ _ hm | br _ hm | ret _ _ hm =>
    obtain rfl : n = _ := by simpa [Conversion.Result.chained, eq_comm] using hn
    exact hm.lt_size
  | binary _ _ _ _ hm | icmp _ _ _ hm =>
    obtain rfl : n = _ := by simpa [Conversion.Result.unchained, eq_comm] using hn
    exact hm.lt_size
  | condBr _ _ _ _ _ _ hm _ hm' _ =>
    obtain rfl | rfl : n = _ ∨ n = _ := by simpa using hn
    · exact hm.lt_size
    · exact hm'.lt_size

/-- Only operations of the machine are chained. -/
theorem Converted.has_of_mem_chain (h : Converted src s b i op result)
    (hn : some n ∈ result.chain) : ∃ m args, s.graph.Has n b (.inst m) args := by
  cases h with
  | alloca | binary | icmp => cases hn
  | phi _ hm | load _ _ _ _ hm | store _ _ _ _ _ hm | br _ hm | ret _ _ hm =>
    cases List.mem_singleton.1 hn
    exact ⟨_, _, hm⟩
  | condBr _ _ _ _ _ _ hm _ hm' _ =>
    obtain rfl | rfl : n = _ ∨ n = _ := by simpa using hn
    · exact ⟨_, _, hm⟩
    · exact ⟨_, _, hm'⟩

theorem Converted.nodup_chain (h : Converted src s b i op result) : result.chain.Nodup := by
  cases h with
  | condBr _ _ _ _ _ _ _ _ _ hlt => simpa using Nat.ne_of_lt hlt
  | _ => simp [Conversion.Result.chained, Conversion.Result.unchained]

/-! ### Sound builders -/

/-- A builder whose context is ready and in which every conversion that has ended is described. No
two of them chain the same node. -/
structure Sound (src : Source) (s : Builder Opcode) : Prop where
  ready : Context.Ready src.func s.context
  converted : ∀ {i : InstrId} {result : Conversion.Result}, s.memo[i]? = some (.converted result) →
    ∃ b op, src.func.blockOf i = some b ∧ src.func.opOf i = some op ∧ Converted src s b i op result
  disjoint : ∀ {i j : InstrId} {result result' : Conversion.Result},
    s.memo[i]? = some (.converted result) → s.memo[j]? = some (.converted result') → i ≠ j →
      ∀ r ∈ result.chain, r ∉ result'.chain

/-- A sound builder goes on to another one and changes nothing that it has made. -/
structure Reaches (src : Source) (s s' : Builder Opcode) : Prop where
  keeps : Builder.Keeps (fun _ => True) s s'
  sound : Sound src s'

theorem Reaches.trans (h : Reaches src s t) (h' : Reaches src t s') : Reaches src s s' :=
  ⟨h.keeps.trans h'.keeps, h'.sound⟩

theorem Sound.refl (h : Sound src s) : Reaches src s s := ⟨.refl s, h⟩

/-- A builder stays sound when it grows and no conversion ends. -/
theorem Sound.grow (h : Sound src s) (hg : s.Grows s')
    (hmemo : ∀ {i : InstrId} {result : Conversion.Result}, s'.memo[i]? = some (.converted result) →
      s.memo[i]? = some (.converted result)) : Sound src s' := by
  refine ⟨hg.context ▸ h.ready, fun hm => ?_, fun hm hm' => h.disjoint (hmemo hm) (hmemo hm')⟩
  obtain ⟨b, op, hb, hop, hconv⟩ := h.converted (hmemo hm)
  exact ⟨b, op, hb, hop, hconv.mono hg⟩

theorem Sound.added (h : Sound src s) (node : Node Opcode) : Reaches src s (s.added node) :=
  have hkeeps : Builder.Keeps (fun _ => True) s (s.added node) := Builder.keeps_added s node
  ⟨hkeeps, h.grow hkeeps.toGrows id⟩

/-- A node that stands for a value has been made. -/
theorem Denotes.made (hs : Sound src s) (h : Denotes src s b v r) : s.graph.Made r := by
  cases h with
  | produced _ _ _ hm =>
    obtain ⟨b, op, -, -, hconv⟩ := hs.converted hm
    exact fun n hn => hconv.lt_size (.inl hn)
  | leaf h _ => exact h.made

/-! ### Operands -/

/-- Whatever is used to convert another instruction of the block: it leaves the builder sound and
answers with the node of the instruction. -/
def Visits (src : Source) (visit : InstrId → Builder.Build Opcode NodeRef) : Prop :=
  ∀ {i : InstrId} {s s' : Builder Opcode} {r : NodeRef}, Sound src s →
    src.func.blockOf i = some s.current → visit i s = .ok r s' → Reaches src s s' ∧
      ∃ result, s'.memo[i]? = some (.converted result) ∧ r = result.value

/-- The producer of a value in a block is the instruction of the block that defines it. -/
theorem producer?_eq_ok (hcon : src.func.Coherent) (hc : Context.Ready src.func c) {x : Value}
    (hx : src.func.values[v]? = some x) (hslot : c.slot? v = none) {p : Option InstrId}
    (h : Builder.producer? src c b v = .ok p) :
    (∀ j, p = some j → x = .result j ∧ j ∈ src.func.inserted ∧ src.func.blockOf j = some b) ∧
    (p = none → ∀ j, x = .result j → src.func.blockOf j ≠ some b) := by
  obtain ⟨d, hd, -, hinstr, -⟩ := exists_definition hc hx
  simp only [Builder.producer?, hslot, Option.isSome_none, Bool.false_eq_true, if_false,
    Except.bind_eq_ok, liftFault_eq_ok, hd, Except.ok.injEq, exists_eq_left', hinstr] at h
  split at h
  · next hnone =>
    obtain rfl := Except.pure_eq_ok.1 h
    refine ⟨(fun _ he => by cases he), fun _ j hj hblock => ?_⟩
    have hin : j ∈ src.func.inserted := Func.mem_inserted.2 ⟨b, hcon.mem_instrsOf.2 hblock⟩
    rw [(Context.producerIn_eq_some (i := j)).2 ⟨hj, hin⟩] at hnone
    cases hnone
  · next j hsome =>
    obtain ⟨rfl, hin⟩ := Context.producerIn_eq_some.1 hsome
    simp only [Except.bind_eq_ok, liftFault_eq_ok, Func.instr_eq_ok, ite_eq_iff,
      Except.pure_eq_ok] at h
    obtain ⟨ins, hins, h⟩ := h
    have hblock : src.func.blockOf j = ins.block := by simp [Func.blockOf, hins]
    rcases h with ⟨hb, rfl⟩ | ⟨hb, rfl⟩
    · refine ⟨fun k hk => ?_, fun he => by cases he⟩
      obtain rfl := Option.some.inj hk
      exact ⟨rfl, hin, hblock.trans hb⟩
    · refine ⟨(fun _ he => by cases he), fun _ k hk => ?_⟩
      cases hk
      rw [hblock]
      exact hb

/-- The leaf of a value that is no address. -/
theorem leafPayload_eq_ok (hc : Context.Ready src.func c) {x : Value}
    (hx : src.func.values[v]? = some x) (hslot : c.slot? v = none) {payload : Payload Opcode}
    (h : Builder.leafPayload src c v = .ok payload) (hn : g.Has n b payload []) :
    Leaf src g b v (some n) := by
  obtain ⟨d, hd, hpay, -, hconst, -⟩ := exists_definition hc hx
  simp only [Builder.leafPayload, hslot, ite_eq_iff, Except.bind_eq_ok, liftFault_eq_ok, hd,
    Except.pure_eq_ok, Except.ok.injEq, exists_eq_left', hconst] at h
  rcases h with ⟨hu, t, ht, bits, hbits, rfl⟩ | ⟨hnot, reg, hreg, rfl⟩
  · exact .imm hx hu ht hbits (hpay ▸ hn)
  · obtain ⟨rfl, hstands⟩ := valueReg_eq_ok hc hx hslot hnot hreg
    obtain ⟨hv, ha⟩ := hstands
    exact .reg hv ha hn

section Run

variable {visit : InstrId → Builder.Build Opcode NodeRef} {isConst : Bool}

theorem run_leaf (hs : Sound src s) {x : Value} (hx : src.func.values[v]? = some x)
    (hslot : s.context.slot? v = none)
    (h : Builder.runConversion src visit (Conversion.makeLeaf v) s = .ok n s') :
    Reaches src s s' ∧ Leaf src s'.graph s.current v (some n) := by
  obtain ⟨payload, hp, rfl, rfl⟩ := Builder.run_makeLeaf h
  exact ⟨hs.added _, leafPayload_eq_ok hs.ready hx hslot hp (Builder.has_added (by simp))⟩

/-- The producer of a value that is no address stands for it. -/
theorem run_operand (hcon : src.func.Coherent) (hvisit : Visits src visit) (hs : Sound src s)
    {x : Value} (hx : src.func.values[v]? = some x) (hslot : s.context.slot? v = none)
    (h : Builder.runConversion src visit (Conversion.makeOperand v) s = .ok r s') :
    Reaches src s s' ∧ Denotes src s' s.current v r := by
  rcases Builder.run_makeOperand h with ⟨j, hp, hj⟩ | ⟨hp, n, rfl, hleaf⟩
  · obtain ⟨rfl, hin, hblock⟩ := (producer?_eq_ok hcon hs.ready hx hslot hp).1 j rfl
    obtain ⟨hreach, result, hm, rfl⟩ := hvisit hs hblock hj
    exact ⟨hreach, .produced hx hblock (isAlloca_of_slot?_eq_none hs.ready hslot hx hin) hm⟩
  · obtain ⟨hreach, hr⟩ := run_leaf hs hx hslot hleaf
    refine ⟨hreach, .leaf hr fun j hj => ?_⟩
    exact (producer?_eq_ok hcon hs.ready hx hslot hp).2 rfl j (Option.some.inj (hx.symm.trans hj))

/-- A result of the same block is produced by the node of its instruction. -/
theorem Denotes.exists_memo (h : Denotes src s b v r) (hv : src.func.values[v]? = some (.result j))
    (hj : src.func.blockOf j = some b) :
    ∃ result, s.memo[j]? = some (.converted result) ∧ r = result.value := by
  cases h with
  | produced hv' _ _ hm =>
    cases hv.symm.trans hv'
    exact ⟨_, hm, rfl⟩
  | leaf _ hnot => exact absurd hj (hnot j hv)

/-- Whatever a rule asks for a value, it is no address. -/
theorem run_valueNode_cases (hs : Sound src s) (hc : s.context = c) {x : Value}
    (hx : src.func.values[v]? = some x) {leaf : Bool}
    (h : Builder.runConversion src visit (valueNode src c i v leaf) s = .ok (r, isConst) s') :
    s.context.slot? v = none ∧
    Builder.runConversion src visit
      (if leaf then some <$> Conversion.makeLeaf v else Conversion.makeOperand v) s = .ok r s' := by
  subst hc
  obtain ⟨d, hd, -⟩ := exists_definition hs.ready hx
  simp only [valueNode, Builder.run_ite, Builder.run_bind, Builder.run_lift, Builder.run_throw,
    Builder.run_pure, liftFault_eq_ok, hd, false_and, and_false, exists_false, false_or] at h
  obtain ⟨hslot, _, _, ⟨-, rfl⟩, h⟩ := h
  refine ⟨by simpa using hslot, Builder.run_ite.2 ?_⟩
  rcases h with ⟨-, _, _, ⟨-, rfl⟩, h⟩ | ⟨-, h⟩ <;>
  · rcases h with ⟨hleaf, _, _, h, heq, rfl⟩ | ⟨hleaf, _, _, h, heq, rfl⟩ <;> cases heq
    · exact .inl ⟨hleaf, h⟩
    · exact .inr ⟨hleaf, h⟩

/-- The node for a value that a phi gets is a leaf. -/
theorem run_valueLeaf (hs : Sound src s) (hc : s.context = c) {x : Value}
    (hx : src.func.values[v]? = some x)
    (h : Builder.runConversion src visit (valueNode src c i v true) s = .ok (r, isConst) s') :
    Reaches src s s' ∧ Leaf src s'.graph s.current v r := by
  obtain ⟨hslot, h⟩ := run_valueNode_cases hs hc hx h
  obtain ⟨n, hleaf, rfl⟩ := Builder.run_map.1 h
  exact run_leaf hs hx hslot hleaf

/-- The node for a value that is a register or a constant. -/
theorem run_valueNode (hcon : src.func.Coherent) (hvisit : Visits src visit) (hs : Sound src s)
    (hc : s.context = c) {x : Value} (hx : src.func.values[v]? = some x)
    (h : Builder.runConversion src visit (valueNode src c i v false) s = .ok (r, isConst) s') :
    Reaches src s s' ∧ Denotes src s' s.current v r := by
  obtain ⟨hslot, h⟩ := run_valueNode_cases hs hc hx h
  exact run_operand hcon hvisit hs hx hslot h

theorem run_regNode (hcon : src.func.Coherent) (hvisit : Visits src visit) (hs : Sound src s)
    (hc : s.context = c) {x : Value} (hx : src.func.values[v]? = some x)
    (h : Builder.runConversion src visit (regNode src c i v) s = .ok r s') :
    Reaches src s s' ∧ Denotes src s' s.current v r := by
  simp only [regNode, Builder.run_ite, Builder.run_bind, Builder.run_lift, Builder.run_throw,
    Builder.run_pure, false_and, and_false, exists_false, false_or] at h
  obtain ⟨⟨_, _⟩, _, h, -, rfl, rfl⟩ := h
  exact run_valueNode hcon hvisit hs hc hx h

/-- The node for the address of a slot. -/
theorem run_slotNode (hs : Sound src s) (hc : s.context = c) {addr : ValueId}
    (h : Builder.runConversion src visit (slotNode src c i addr) s = .ok r s') :
    Reaches src s s' ∧ ∃ j m, src.func.values[addr]? = some (.result j) ∧
      src.func.isAlloca j = true ∧ r = some m ∧
      s'.graph.Has m s.current (.slot (src.func.slotOf j)) [] := by
  subst hc
  simp only [slotNode, Builder.run_bind, Builder.run_lift] at h
  obtain ⟨sl, _, ⟨hslot, rfl⟩, h⟩ := h
  have hsl := slotOperand_eq_ok hslot
  obtain ⟨j, hj, -, ha, rfl⟩ := slot?_eq_some hs.ready hsl
  rcases Builder.run_makeOperand h with ⟨k, hp, -⟩ | ⟨-, n, rfl, hleaf⟩
  · simp [Builder.producer?, hsl, Except.pure_eq_ok] at hp
  · obtain ⟨payload, hp, rfl, rfl⟩ := Builder.run_makeLeaf hleaf
    obtain rfl : .slot (src.func.slotOf j) = payload := by
      simpa [Builder.leafPayload, hsl, Except.pure_eq_ok] using hp
    exact ⟨hs.added _, j, _, hj, ha, rfl, Builder.has_added (by simp)⟩

/-! ### The rules -/

/-- The end of the conversion of an instruction of the current block. The nodes that it chains are
new. -/
structure Ends (src : Source) (s s' : Builder Opcode) (i : InstrId) (op : Operation)
    (result : Conversion.Result) : Prop where
  reaches : Reaches src s s'
  converted : Converted src s' s.current i op result
  fresh : ∀ {j : InstrId} {result' : Conversion.Result}, s'.memo[j]? = some (.converted result') →
    ∀ r ∈ result.chain, r ∉ result'.chain

/-- A node that is made after a conversion is not one of those that it chains. -/
theorem Sound.not_mem_chain (hs : Sound src s) (hm : s.memo[j]? = some (.converted result))
    (hn : s.graph.nodes.size ≤ n) : some n ∉ result.chain := by
  intro hmem
  obtain ⟨b, op, -, -, hconv⟩ := hs.converted hm
  exact Nat.not_lt.2 hn (hconv.lt_size (.inr hmem))

/-- A conversion that ends with a node on the chain. -/
theorem Ends.chained {node : Node Opcode} (h : Reaches src s t)
    (hconv : Converted src (t.added node) s.current i op (.chained t.graph.nodes.size)) :
    Ends src s (t.added node) i op (.chained t.graph.nodes.size) := by
  refine ⟨h.trans (h.sound.added node), hconv, fun {j result'} hm r hr => ?_⟩
  obtain rfl := List.mem_singleton.1 hr
  exact h.sound.not_mem_chain hm (Nat.le_refl _)

/-- A conversion that ends with nothing on the chain. -/
theorem Ends.unchained {node : Node Opcode} (h : Reaches src s t)
    (hconv : Converted src (t.added node) s.current i op (.unchained t.graph.nodes.size)) :
    Ends src s (t.added node) i op (.unchained t.graph.nodes.size) :=
  ⟨h.trans (h.sound.added node), hconv, fun _ _ hr => by cases hr⟩

/-- The node that a builder makes for the block in which it started. -/
theorem Reaches.has_added (h : Reaches src s t) {payload : Payload Opcode} {args : List NodeRef}
    (hargs : ∀ r ∈ args, t.graph.Made r) :
    (t.added (Node.make t.current payload args)).graph.Has t.graph.nodes.size s.current payload
      args :=
  h.keeps.current ▸ Builder.has_added hargs

theorem Reaches.has_added_pair (h : Reaches src s t) {payload : Payload Opcode} {r q : NodeRef}
    (hr : t.graph.Made r) (hq : t.graph.Made q) :
    (t.added (Node.make t.current payload [r, q])).graph.Has t.graph.nodes.size s.current payload
      [r, q] :=
  h.has_added (List.forall_mem_cons.2 ⟨hr, List.forall_mem_singleton.2 hq⟩)

theorem convertLoad_eq_ok (hs : Sound src s) (hc : s.context = c) {t : TypeId} {addr : ValueId}
    (h : Builder.runConversion src visit (convertLoad src c i t addr) s = .ok n s') :
    Ends src s s' i (.load t addr) (.chained n) := by
  simp only [convertLoad, Builder.run_bind, Builder.run_lift] at h
  obtain ⟨_, _, ⟨hint, rfl⟩, r, t₁, hslot, h⟩ := h
  obtain ⟨hreach, j, m, haddr, hj, rfl, hm⟩ := run_slotNode hs hc hslot
  obtain ⟨rfl, rfl⟩ := Builder.run_makeInst h
  exact .chained hreach (.load (requireInt32_eq_ok hint) haddr hj
    (hm.mono (hreach.sound.added _).keeps.graph)
    (hreach.has_added (List.forall_mem_singleton.2 hm.made)))

theorem convertStore_eq_ok (hcon : src.func.Coherent) (hvisit : Visits src visit)
    (hs : Sound src s) (hc : s.context = c) {w addr : ValueId} {x : Value}
    (hx : src.func.values[w]? = some x)
    (h : Builder.runConversion src visit (convertStore src c i w addr) s = .ok n s') :
    Ends src s s' i (.store w addr) (.chained n) := by
  simp only [convertStore, Builder.run_bind, Builder.run_lift, liftFault_eq_ok] at h
  obtain ⟨t, _, ⟨ht, rfl⟩, _, _, ⟨hint, rfl⟩, mem, t₁, hslot, ⟨r, isConst⟩, t₂, hvalue, h⟩ := h
  obtain ⟨hreach₁, j, m, haddr, hj, rfl, hm⟩ := run_slotNode hs hc hslot
  obtain ⟨hreach₂, hr⟩ :=
    run_valueNode hcon hvisit hreach₁.sound (hreach₁.keeps.context.trans hc) hx hvalue
  rw [hreach₁.keeps.current] at hr
  have hreach := hreach₁.trans hreach₂
  have hm := hm.mono hreach₂.keeps.graph
  obtain ⟨rfl, rfl⟩ := Builder.run_makeInst h
  exact .chained hreach (.store (isWord_of_valueType ht (requireInt32_eq_ok hint)) haddr hj
    (hm.mono (hreach.sound.added _).keeps.graph) (hr.mono (hreach.sound.added _).keeps.toGrows)
    (hreach.has_added_pair hm.made (hr.made hreach.sound)))

/-- Two values are asked for one after the other. -/
theorem run_pair (hcon : src.func.Coherent) (hvisit : Visits src visit) (hs : Sound src s)
    (hc : s.context = c) {x y : ValueId} {vx vy : Value} (hx : src.func.values[x]? = some vx)
    (hy : src.func.values[y]? = some vy) {q : NodeRef} {s₁ : Builder Opcode}
    (h : Builder.runConversion src visit (regNode src c i x) s = .ok r s₁)
    (h' : Builder.runConversion src visit (valueNode src c i y false) s₁ = .ok (q, isConst) t) :
    Reaches src s t ∧ Denotes src t s.current x r ∧ Denotes src t s.current y q := by
  obtain ⟨hreach₁, hr⟩ := run_regNode hcon hvisit hs hc hx h
  obtain ⟨hreach₂, hq⟩ :=
    run_valueNode hcon hvisit hreach₁.sound (hreach₁.keeps.context.trans hc) hy h'
  rw [hreach₁.keeps.current] at hq
  exact ⟨hreach₁.trans hreach₂, hr.mono hreach₂.keeps.toGrows, hq⟩

theorem convertBinary_eq_ok (hcon : src.func.Coherent) (hvisit : Visits src visit)
    (hs : Sound src s) (hc : s.context = c) {op : BinaryOp} {t : TypeId} {x y : ValueId}
    {vx vy : Value} (hx : src.func.values[x]? = some vx) (hy : src.func.values[y]? = some vy)
    (h : Builder.runConversion src visit (convertBinary src c i op t x y) s = .ok n s') :
    Ends src s s' i (.binary op t x y) (.unchained n) := by
  unfold convertBinary at h
  cases hop : binaryOpcodes op with
  | none =>
    rw [hop] at h
    exact absurd h Builder.run_throw
  | some ops =>
    obtain ⟨rr, ri⟩ := ops
    simp only [hop, Builder.run_bind, Builder.run_lift] at h
    obtain ⟨_, _, ⟨hint, rfl⟩, r, t₁, hreg, ⟨q, isConst⟩, t₂, hvalue, h⟩ := h
    obtain ⟨hreach, hr, hq⟩ := run_pair hcon hvisit hs hc hx hy hreg hvalue
    obtain ⟨rfl, rfl⟩ := Builder.run_makeInst h
    exact .unchained hreach (.binary hop (requireInt32_eq_ok hint)
      (hr.mono (hreach.sound.added _).keeps.toGrows) (hq.mono (hreach.sound.added _).keeps.toGrows)
      (hreach.has_added_pair (hr.made hreach.sound) (hq.made hreach.sound)))

theorem convertIcmp_eq_ok (hcon : src.func.Coherent) (hvisit : Visits src visit)
    (hs : Sound src s) (hc : s.context = c) {p : Predicate} {t : TypeId} {x y : ValueId}
    (hexist : ∀ v ∈ [x, y], ∃ x, src.func.values[v]? = some x)
    (h : Builder.runConversion src visit (convertIcmp src c i p x y) s = .ok n s') :
    Ends src s s' i (.icmp p t x y) (.unchained n) := by
  simp only [convertIcmp, Builder.run_bind, Builder.run_lift] at h
  obtain ⟨cmp, _, ⟨hcmp, rfl⟩, r, t₁, hreg, ⟨q, isConst⟩, t₂, hvalue, h⟩ := h
  obtain ⟨⟨_, hx⟩, ⟨_, hy⟩⟩ : (∃ x, src.func.values[cmp.x]? = some x) ∧
      ∃ x, src.func.values[cmp.y]? = some x := by
    cases (comparison_eq_ok hcmp).2 <;> exact ⟨hexist _ (by simp), hexist _ (by simp)⟩
  obtain ⟨hreach, hr, hq⟩ := run_pair hcon hvisit hs hc hx hy hreg hvalue
  obtain ⟨rfl, rfl⟩ := Builder.run_makeInst h
  have hadded := hreach.sound.added (Node.make t₂.current
    (.inst (if isConst = true then .cmpri32 else .cmprr32)) [r, q])
  have hcontext := (hreach.trans hadded).keeps.context.trans hc
  exact .unchained hreach (.icmp (hcontext ▸ hcmp) (hr.mono hadded.keeps.toGrows)
    (hq.mono hadded.keeps.toGrows)
    (hreach.has_added_pair (hr.made hreach.sound) (hq.made hreach.sound)))

/-- The leaf for a block. -/
theorem run_blockNode (hs : Sound src s) {target : BlockId}
    (h : Builder.runConversion src visit (Conversion.makeBlock target) s = .ok n s') :
    Reaches src s s' ∧ s'.memo = s.memo ∧
      s'.graph.Has n s.current (.block (target + 1) target) [] := by
  obtain ⟨l, hl, rfl, rfl⟩ := Builder.run_makeBlock h
  obtain rfl := (hs.ready.label_eq_ok.1 hl).2
  exact ⟨hs.added _, rfl, Builder.has_added (by simp)⟩

theorem convertBr_eq_ok (hs : Sound src s) {target : BlockId}
    (h : Builder.runConversion src visit (convertBr target) s = .ok n s') :
    Ends src s s' i (.br target) (.chained n) := by
  simp only [convertBr, Builder.run_bind] at h
  obtain ⟨m, t, hblock, h⟩ := h
  obtain ⟨hreach, -, hm⟩ := run_blockNode hs hblock
  obtain ⟨rfl, rfl⟩ := Builder.run_makeInst h
  exact .chained hreach (.br (hm.mono (hreach.sound.added _).keeps.graph)
    (hreach.has_added (List.forall_mem_singleton.2 hm.made)))

/-- The result of a comparison is no address. -/
theorem slot?_eq_none (hc : Context.Ready src.func c) (hv : src.func.values[v]? = some (.result j))
    {p : Predicate} {t : TypeId} {x y : ValueId} (hop : src.func.opOf j = some (.icmp p t x y)) :
    c.slot? v = none := by
  cases hslot : c.slot? v with
  | none => rfl
  | some sl =>
    obtain ⟨k, hk, -, ha, -⟩ := slot?_eq_some hc hslot
    cases hv.symm.trans hk
    simp [Func.isAlloca, hop] at ha

/-- A branch reads the flags of a comparison in its block. -/
theorem convertCondBr_eq_ok (hcon : src.func.Coherent) (hvisit : Visits src visit)
    (hs : Sound src s) (hc : s.context = c) {cond : ValueId} {l e : BlockId} {x : Value}
    (hx : src.func.values[cond]? = some x)
    (h : Builder.runConversion src visit (convertCondBr src c i (some s.current) cond l e) s =
      .ok result s') : Ends src s s' i (.condBr cond l e) result := by
  subst hc
  simp only [convertCondBr, Builder.run_bind, Builder.run_lift, liftFault_eq_ok] at h
  obtain ⟨cmp?, _, ⟨hicmp, rfl⟩, h⟩ := h
  cases cmp? with
  | none => simp [Builder.run_bind, Builder.run_throw] at h
  | some cmp =>
    obtain ⟨j, p, y, z⟩ := cmp
    obtain ⟨hcond, hj, t, hop⟩ := icmp?_eq_ok hs.ready hx hicmp
    simp only [Builder.run_bind, Builder.run_lift, liftFault_eq_ok, Func.instr_eq_ok,
      Builder.run_ite, Builder.run_throw, Builder.run_pure, false_and, and_false, exists_false,
      false_or] at h
    obtain ⟨ins, _, ⟨hins, rfl⟩, hblock, cmp, _, ⟨hcmp, rfl⟩, r, t₁, hflags, m, t₂, hthen, n, t₃,
      hjump, m', t₄, helse, n', t₅, hother, rfl, rfl⟩ := h
    have hblock : src.func.blockOf j = some s.current := by
      simpa [Func.blockOf, hins] using hblock
    obtain ⟨hreach₁, hr⟩ := run_operand hcon hvisit hs hx (slot?_eq_none hs.ready hcond hop) hflags
    obtain ⟨result, hresult, rfl⟩ := hr.exists_memo hcond hblock
    obtain ⟨hstep₂, -, hm⟩ := run_blockNode hreach₁.sound hthen
    rw [hreach₁.keeps.current] at hm
    have hreach₂ := hreach₁.trans hstep₂
    obtain ⟨rfl, rfl⟩ := Builder.run_makeInst hjump
    have hstep₃ :=
      hreach₂.sound.added (Node.make t₂.current (.inst cmp.jump) [result.value, some m])
    have hreach₃ := hreach₂.trans hstep₃
    have hn : (t₂.added (Node.make t₂.current (.inst cmp.jump) [result.value, some m])).graph.Has _
        s.current (.inst cmp.jump) [result.value, some m] :=
      hreach₂.has_added_pair ((hr.mono hstep₂.keeps.toGrows).made hreach₂.sound) hm.made
    obtain ⟨hstep₄, hmemo, hm'⟩ := run_blockNode hreach₃.sound helse
    rw [hreach₃.keeps.current] at hm'
    have hreach₄ := hreach₃.trans hstep₄
    obtain ⟨rfl, rfl⟩ := Builder.run_makeInst hother
    have hstep₅ := hreach₄.sound.added (Node.make t₄.current (.inst .jmp) [some m'])
    have hlt : t₂.graph.nodes.size < t₄.graph.nodes.size := (hn.mono hstep₄.keeps.graph).lt_size
    have hlast := (hstep₃.trans (hstep₄.trans hstep₅)).keeps
    refine ⟨hreach₄.trans hstep₅, .condBr hcond hblock hop ?_ ?_ (hm.mono hlast.graph)
      (hn.mono (hstep₄.trans hstep₅).keeps.graph) (hm'.mono hstep₅.keeps.graph)
      (hreach₄.has_added (List.forall_mem_singleton.2 hm'.made)) hlt, fun {k result'} hk q hq => ?_⟩
    · rwa [(hreach₄.trans hstep₅).keeps.context]
    · exact hlast.memo (hstep₂.keeps.memo hresult)
    · have hk : t₂.memo[k]? = some (.converted result') := by
        have hk : t₄.memo[k]? = some (.converted result') := hk
        rwa [hmemo] at hk
      rcases List.mem_pair.1 hq with rfl | rfl
      · exact hreach₂.sound.not_mem_chain hk (Nat.le_refl _)
      · exact hreach₂.sound.not_mem_chain hk (Nat.le_of_lt hlt)

theorem convertRet_eq_ok (hcon : src.func.Coherent) (hvisit : Visits src visit)
    (hs : Sound src s) (hc : s.context = c) {w : Option ValueId}
    (hexist : ∀ v ∈ w, ∃ x, src.func.values[v]? = some x)
    (h : Builder.runConversion src visit (convertRet src c i w) s = .ok n s') :
    Ends src s s' i (.ret w) (.chained n) := by
  cases w with
  | none => exact absurd h Builder.run_throw
  | some w =>
    obtain ⟨x, hx⟩ := hexist w rfl
    simp only [convertRet, Builder.run_bind, Builder.run_lift, liftFault_eq_ok] at h
    obtain ⟨t, _, ⟨ht, rfl⟩, _, _, ⟨hint, rfl⟩, ⟨r, isConst⟩, t₁, hvalue, h⟩ := h
    obtain ⟨hreach, hr⟩ := run_valueNode hcon hvisit hs hc hx hvalue
    obtain ⟨rfl, rfl⟩ := Builder.run_makeInst h
    exact .chained hreach (.ret (isWord_of_valueType ht (requireInt32_eq_ok hint))
      (hr.mono (hreach.sound.added _).keeps.toGrows)
      (hreach.has_added (List.forall_mem_singleton.2 (hr.made hreach.sound))))

theorem Incoming.made {incoming : List (ValueId × BlockId)} {p : BlockId} {args : List NodeRef}
    (h : Incoming src g b incoming p args) : ∀ r ∈ args, g.Made r := by
  cases h with
  | mk _ hr hm => exact List.forall_mem_cons.2 ⟨hr.made, List.forall_mem_singleton.2 hm.made⟩

/-- The operands of a phi are made in the order of the predecessors. -/
theorem run_incomingNodes (hs : Sound src s) (hc : s.context = c)
    {incoming : List (ValueId × BlockId)}
    (hexist : ∀ inc ∈ incoming, ∃ x, src.func.values[inc.1]? = some x) {preds : List BlockId}
    {incs : List (ValueId × BlockId)} {args : List (List NodeRef)}
    (hincs : List.Forall₂ (fun p inc => incomingFrom src i incoming p = .ok inc) preds incs)
    (h : Builder.runConversion src visit (incs.mapM (incomingNodes src c i)) s = .ok args s') :
    Reaches src s s' ∧ List.Forall₂ (Incoming src s'.graph s.current incoming) preds args := by
  induction hincs generalizing s args with
  | nil =>
    obtain ⟨rfl, rfl⟩ := Builder.run_mapM_nil.1 h
    exact ⟨hs.refl, .nil⟩
  | @cons p inc preds incs hinc _ ih =>
    obtain ⟨a, t, rest, ha, hrest, rfl⟩ := Builder.run_mapM_cons.1 h
    simp only [incomingNodes, Builder.run_bind, Builder.run_pure] at ha
    obtain ⟨⟨r, isConst⟩, t₁, hvalue, m, _, hblock, rfl, rfl⟩ := ha
    obtain ⟨hmem, rfl, hfind⟩ := incomingFrom_eq_ok hinc
    obtain ⟨x, hx⟩ := hexist inc hmem
    obtain ⟨hreach₁, hr⟩ := run_valueLeaf hs hc hx hvalue
    obtain ⟨hreach₂, -, hm⟩ := run_blockNode hreach₁.sound hblock
    rw [hreach₁.keeps.current] at hm
    have hreach := hreach₁.trans hreach₂
    obtain ⟨hreach₃, hargs⟩ := ih hreach.sound (hreach.keeps.context.trans hc) hrest
    rw [hreach.keeps.current] at hargs
    refine ⟨hreach.trans hreach₃, .cons (.mk hfind ?_ (hm.mono hreach₃.keeps.graph)) hargs⟩
    exact hr.mono (hreach₂.trans hreach₃).keeps.graph

theorem convertPhi_eq_ok (hs : Sound src s) (hc : s.context = c) {ins : Codegen.Instr}
    (hins : src.func.instrs[i]? = some ins) (hb : ins.block = some s.current) {t : TypeId}
    {incoming : List (ValueId × BlockId)}
    (hexist : ∀ inc ∈ incoming, ∃ x, src.func.values[inc.1]? = some x)
    (h : Builder.runConversion src visit (convertPhi src c i t incoming) s = .ok n s') :
    Ends src s s' i (.phi t incoming) (.chained n) := by
  simp only [convertPhi, Builder.run_ite, Builder.run_bind, Builder.run_lift, Builder.run_throw,
    false_and, and_false, exists_false, false_or] at h
  obtain ⟨-, incs, _, ⟨hincs, rfl⟩, args, t₁, hnodes, h⟩ := h
  obtain ⟨hreach, hargs⟩ := run_incomingNodes hs hc hexist (incomings_eq_ok hins hb hincs) hnodes
  obtain ⟨rfl, rfl⟩ := Builder.run_makeInst h
  refine .chained hreach (.phi (hargs.imp fun p a ha => ?_) (hreach.has_added fun r hr => ?_))
  · exact ha.mono (hreach.sound.added _).keeps.graph
  · obtain ⟨a, ha, hr⟩ := List.mem_flatten.1 hr
    obtain ⟨p, -, hp⟩ := exists_mem_of_forall₂ hargs.flip ha
    exact hp.made r hr

/-- A conversion leaves a builder sound and ends with what is described for the operation. -/
theorem converter_eq_ok (hcon : src.func.Coherent) (hvisit : Visits src visit) (hs : Sound src s)
    (hb : src.func.blockOf i = some s.current)
    (h : Builder.runConversion src visit (converter src s.context i) s = .ok result s') :
    ∃ op, src.func.opOf i = some op ∧ Ends src s s' i op result := by
  simp only [converter, Builder.run_bind, Builder.run_lift, liftFault_eq_ok, Func.instr_eq_ok] at h
  obtain ⟨ins, _, ⟨hins, rfl⟩, h⟩ := h
  have hblock : ins.block = some s.current := by simpa [Func.blockOf, hins] using hb
  have hin : i ∈ src.func.inserted := Func.mem_inserted.2 ⟨s.current, hcon.mem_instrsOf.2 hb⟩
  have hexist {op : Operation} (hop : ins.op = some op) {v : ValueId} (hv : v ∈ op.args) :
      ∃ x, src.func.values[v]? = some x :=
    ⟨_, Array.getElem?_eq_getElem (Func.operandsExist_of_users hs.ready.users i hin op
      (by simp [Func.opOf, hins, hop]) v hv)⟩
  cases hop : ins.op with
  | none =>
    rw [hop] at h
    exact absurd h Builder.run_throw
  | some op =>
    refine ⟨op, by simp [Func.opOf, hins, hop], ?_⟩
    rw [hop] at h
    cases op with
    | alloca t e k a =>
      simp only [Builder.run_bind, Builder.run_lift, Builder.run_pure] at h
      obtain ⟨_, _, ⟨-, rfl⟩, rfl, rfl⟩ := h
      exact ⟨hs.refl, .alloca, fun _ _ hr => by cases hr⟩
    | phi t incoming =>
      obtain ⟨n, hrun, rfl⟩ := Builder.run_bind_pure.1 h
      exact convertPhi_eq_ok hs rfl hins hblock
        (fun inc hinc => hexist hop (List.mem_map_of_mem hinc)) hrun
    | load t addr =>
      obtain ⟨n, hrun, rfl⟩ := Builder.run_bind_pure.1 h
      exact convertLoad_eq_ok hs rfl hrun
    | store w addr =>
      obtain ⟨n, hrun, rfl⟩ := Builder.run_bind_pure.1 h
      obtain ⟨x, hx⟩ := hexist hop (v := w) (by simp [Operation.args])
      exact convertStore_eq_ok hcon hvisit hs rfl hx hrun
    | binary op t x y =>
      obtain ⟨n, hrun, rfl⟩ := Builder.run_bind_pure.1 h
      obtain ⟨_, hx⟩ := hexist hop (v := x) (by simp [Operation.args])
      obtain ⟨_, hy⟩ := hexist hop (v := y) (by simp [Operation.args])
      exact convertBinary_eq_ok hcon hvisit hs rfl hx hy hrun
    | icmp p t x y =>
      obtain ⟨n, hrun, rfl⟩ := Builder.run_bind_pure.1 h
      exact convertIcmp_eq_ok hcon hvisit hs rfl (fun v hv => hexist hop hv) hrun
    | br target =>
      obtain ⟨n, hrun, rfl⟩ := Builder.run_bind_pure.1 h
      exact convertBr_eq_ok hs hrun
    | condBr cond l e =>
      obtain ⟨x, hx⟩ := hexist hop (v := cond) (by simp [Operation.args])
      rw [hblock] at h
      exact convertCondBr_eq_ok hcon hvisit hs rfl hx h
    | ret w =>
      obtain ⟨n, hrun, rfl⟩ := Builder.run_bind_pure.1 h
      refine convertRet_eq_ok hcon hvisit hs rfl (fun v hv => hexist hop ?_) hrun
      simpa [Operation.args] using hv
    | sext | zext | getElementPtr | call => exact absurd h Builder.run_throw

end Run

/-- A builder that remembers the end of a conversion is sound. -/
theorem Ends.sound (h : Ends src s t i op result) (hb : src.func.blockOf i = some s.current)
    (hop : src.func.opOf i = some op) (hbusy : t.memo[i]? = some .inProgress) :
    Sound src (t.remembered i (.converted result)) := by
  have hgrows : t.Grows (t.remembered i (.converted result)) :=
    Builder.grows_remembered_converted hbusy
  have hmemo {k : InstrId} {result' : Conversion.Result}
      (hk : (t.remembered i (.converted result)).memo[k]? = some (.converted result')) :
      i = k ∧ result' = result ∨ i ≠ k ∧ t.memo[k]? = some (.converted result') := by
    rw [Builder.memo_remembered (Array.getElem?_eq_some_iff.1 hbusy).1] at hk
    split at hk
    · next hik =>
      cases hk
      exact .inl ⟨hik, rfl⟩
    · next hik => exact .inr ⟨hik, hk⟩
  refine ⟨hgrows.context ▸ h.reaches.sound.ready, fun {k result'} hk => ?_,
    fun {k k' result₁ result₂} hk hk' hne r hr => ?_⟩
  · rcases hmemo hk with ⟨rfl, rfl⟩ | ⟨-, hk⟩
    · exact ⟨s.current, op, hb, hop, h.converted.mono hgrows⟩
    · obtain ⟨b, op', hb', hop', hconv⟩ := h.reaches.sound.converted hk
      exact ⟨b, op', hb', hop', hconv.mono hgrows⟩
  · rcases hmemo hk with ⟨rfl, rfl⟩ | ⟨-, hold⟩
    · obtain ⟨rfl, -⟩ | ⟨-, hold⟩ := hmemo hk'
      · exact absurd rfl hne
      · exact h.fresh hold r hr
    · obtain ⟨rfl, rfl⟩ | ⟨-, hold'⟩ := hmemo hk'
      · exact fun hr' => h.fresh hold r hr' hr
      · exact h.reaches.sound.disjoint hold hold' hne r hr

/-- A builder stays sound when a conversion begins. -/
theorem Sound.begun (hs : Sound src s) (hm : s.memo[i]? = some .unseen) :
    Sound src (s.remembered i .inProgress) := by
  have hbegin : Builder.Keeps (fun _ => True) s (s.remembered i .inProgress) :=
    Builder.keeps_remembered_inProgress hm
  refine hs.grow hbegin.toGrows fun {j result} hj => ?_
  rw [Builder.memo_remembered (Array.getElem?_eq_some_iff.1 hm).1] at hj
  split at hj
  · cases hj
  · exact hj

/-- Converting an instruction of the current block, unless that was done before, leaves a builder
sound. -/
theorem visits_convert (hcon : src.func.Coherent) (fuel : Nat) :
    Visits src (Builder.convert converter src fuel) := by
  induction fuel with
  | zero => exact fun _ _ h => absurd h EStateM.throw_ne_ok
  | succ fuel ih =>
    intro i s s' r hs hb h
    rcases Builder.convert_eq_ok h with ⟨result, hm, rfl, rfl⟩ | ⟨result, t, hm, hrun, rfl, rfl⟩
    · exact ⟨hs.refl, result, hm, rfl⟩
    obtain ⟨op, hop, hends⟩ := converter_eq_ok hcon ih (hs.begun hm) hb hrun
    have hconvert : t.memo[i]? = some .inProgress ∧
        Builder.Keeps (fun _ => True) s (t.remembered i (.converted result)) :=
      hends.reaches.keeps.convert hm
    refine ⟨⟨hconvert.2, hends.sound hb hop hconvert.1⟩, result, ?_, rfl⟩
    rw [Builder.memo_remembered (Array.getElem?_eq_some_iff.1 hconvert.1).1, if_pos rfl]

end Codegen.X86
