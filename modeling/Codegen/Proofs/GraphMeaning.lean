import Codegen.Proofs.Growth
import Codegen.Proofs.Machine

/-!
# The meaning of graphs

The graph of a block is run along its chain. Each node on the chain reads its operands through the
data edges when it is reached. A leaf stands for a constant, for what a register holds where the
block starts, for the address of a slot or for a label. Sums, differences and comparisons are not on
the chain and are worked out from their operands wherever they are read; a load or a phi has no
value until it is reached.

## Main definitions

* `X86.NodeValue`: what a node stands for.
* `X86.nodeValue`: the value of a node.
* `X86.execNode`, `X86.runChain`: the meaning of a node on the chain, and of the chain.
* `X86.execGraph`: the meaning of the graph of a block.

## Main results

* `X86.nodeValue_mono`: a value stays as it is while more nodes are reached.
-/

namespace Codegen.X86

/-- What a node stands for while a block runs. -/
inductive NodeValue where
  | number (n : Nat)
  | address (s : SlotId)
  | flags (fl : Flags)
  | label (l : Label)
deriving DecidableEq, Repr

namespace NodeValue

/-- The low word of a number. -/
def word? : NodeValue → Option (BitVec 32)
  | number n => some (BitVec.ofNat 32 n)
  | _ => none

/-- The slot whose address a value is. -/
def address? : NodeValue → Option SlotId
  | address s => some s
  | _ => none

/-- The flags that a comparison has set. -/
def flags? : NodeValue → Option Flags
  | flags fl => some fl
  | _ => none

/-- The label of a block. -/
def label? : NodeValue → Option Label
  | label l => some l
  | _ => none

end NodeValue

/-- What an operation that is not on the chain makes of two words. -/
def Opcode.combine? : Opcode → Option (BitVec 32 → BitVec 32 → NodeValue)
  | .addrr32 | .addri32 => some fun x y => .number (x + y).toNat
  | .subrr32 | .subri32 => some fun x y => .number (x - y).toNat
  | .cmprr32 | .cmpri32 => some fun x y => .flags (.ofSub x y)
  | _ => none

/-- What is known while a block runs: the contents of the slots, and what the nodes on the chain
have produced when they were reached. -/
structure Progress where
  mem : Memory
  produced : NodeId → Option NodeValue

/-- Records what a node has produced. -/
def Progress.produce (p : Progress) (n : NodeId) (x : NodeValue) : Progress :=
  { p with produced := fun m => if m = n then some x else p.produced m }

theorem Progress.produced_produce_self (p : Progress) (n : NodeId) (x : NodeValue) :
    (p.produce n x).produced n = some x := if_pos rfl

theorem Progress.produced_produce_of_ne (p : Progress) {n m : NodeId} (h : m ≠ n) (x : NodeValue) :
    (p.produce n x).produced m = p.produced m := if_neg h

variable (types : TypeTable) (g : Graph Opcode) (regs : Reg → Nat)

/-! ### Data edges -/

/-- The value of a node, if it takes at most as many data edges as given to work it out. The
registers are those at the start of the block. -/
def nodeValue (produced : NodeId → Option NodeValue) : Nat → NodeRef → Option NodeValue
  | fuel + 1, some n => do
    let node ← g.nodes[n]?
    match node.payload with
    | some (.imm v bits) => some (.number (BitVec.ofInt bits.toNat v.toInt).toNat)
    | some (.vreg r) => some (.number (BitVec.ofNat (regWidth types g.regs r) (regs r)).toNat)
    | some (.slot s) => some (.address s)
    | some (.block l _) => some (.label l)
    | some (.inst op) =>
      match op.combine?, node.args with
      | some f, [x, y] => do
        let x ← (nodeValue produced fuel x).bind NodeValue.word?
        let y ← (nodeValue produced fuel y).bind NodeValue.word?
        return f x y
      | some _, _ => none
      | none, _ => produced n
    | none => none
  | _, _ => none

/-- The value that an operand has. An operand was made before the operation that reads it, so that
there are fewer data edges behind it than there are nodes. -/
def Progress.read (p : Progress) (r : NodeRef) : Option NodeValue :=
  nodeValue types g regs p.produced g.nodes.size r

/-! ### The chain -/

/-- The operand of a phi that belongs to a label: operands and labels take turns. -/
def incomingArg (p : Progress) (l : Label) : List NodeRef → Option NodeRef
  | x :: r :: rest =>
    if p.read types g regs r = some (.label l) then some x else incomingArg p l rest
  | _ => none

/-- The meaning of a node on the chain: whether and how it leaves the block, and what is known then.
Control came from the label `prev`, unless the function starts with the block. -/
def execNode (prev : Option Label) (n : NodeId) (p : Progress) :
    Option (Option (Exit Label) × Progress) := do
  let node ← g.nodes[n]?
  match node.payload, node.args with
  | some (.inst .phi), args => do
    let x ← p.read types g regs (← incomingArg types g regs p (← prev) args)
    return (none, p.produce n x)
  | some (.inst .movrm32), [a] => do
    let s ← (p.read types g regs a).bind NodeValue.address?
    return (none, p.produce n (.number (p.mem s).toNat))
  | some (.inst .movmr32), [a, x] | some (.inst .movmi32), [a, x] => do
    let s ← (p.read types g regs a).bind NodeValue.address?
    let x ← (p.read types g regs x).bind NodeValue.word?
    return (none, { p with mem := p.mem.set s x })
  | some (.inst .jmp), [l] => do
    let l ← (p.read types g regs l).bind NodeValue.label?
    return (some (.goto l), p)
  | some (.inst .ret), [x] => do
    let x ← (p.read types g regs x).bind NodeValue.word?
    return (some (.returned x), p)
  | some (.inst op), [fl, l] => do
    let fl ← (p.read types g regs fl).bind NodeValue.flags?
    let l ← (p.read types g regs l).bind NodeValue.label?
    return (if ← fl.taken op then some (.goto l) else none, p)
  | _, _ => none

/-- The nodes on the chain, up to the first one that leaves the block. -/
def runChain (prev : Option Label) : List NodeId → Progress → Option (Exit Label × Memory)
  | [], _ => none
  | n :: rest, p =>
    match execNode types g regs prev n p with
    | some (none, p) => runChain prev rest p
    | some (some e, p) => some (e, p.mem)
    | none => none

/-- The meaning of the graph of a block when control comes from the label `prev`, or when the
function starts. -/
def execGraph (b : BlockId) (prev : Option Label) (mem : Memory) : Option (Exit Label × Memory) :=
  match g.chainOrder b with
  | .ok nodes => runChain types g regs prev nodes { mem, produced := fun _ => none }
  | .error _ => none

/-! ### Values stay as they are -/

section Values

variable {types g regs} {produced produced' : NodeId → Option NodeValue} {n m : NodeId}
  {b : BlockId} {args : List NodeRef} {op : Opcode} {x : NodeValue} {p : Progress} {fuel : Nat}

/-- The value of a node is read off its payload and its operands. -/
theorem nodeValue_of_has {payload : Payload Opcode} : g.Has n b payload args →
    nodeValue types g regs produced (fuel + 1) (some n) =
      match payload with
      | .imm v bits => some (.number (BitVec.ofInt bits.toNat v.toInt).toNat)
      | .vreg r => some (.number (BitVec.ofNat (regWidth types g.regs r) (regs r)).toNat)
      | .slot s => some (.address s)
      | .block l _ => some (.label l)
      | .inst op =>
        match op.combine?, args with
        | some f, [r, q] => do
          let x ← (nodeValue types g regs produced fuel r).bind NodeValue.word?
          let y ← (nodeValue types g regs produced fuel q).bind NodeValue.word?
          return f x y
        | some _, _ => none
        | none, _ => produced n := by
  rintro ⟨⟨_, hn⟩, -⟩
  rw [nodeValue, hn]
  cases payload <;> rfl

theorem nodeValue_imm {v : Int64} {bits : Int} (hn : g.Has n b (.imm v bits) args) :
    nodeValue types g regs produced (fuel + 1) (some n) =
      some (.number (BitVec.ofInt bits.toNat v.toInt).toNat) := nodeValue_of_has hn

theorem nodeValue_vreg {r : Reg} (hn : g.Has n b (.vreg r) args) :
    nodeValue types g regs produced (fuel + 1) (some n) =
      some (.number (BitVec.ofNat (regWidth types g.regs r) (regs r)).toNat) := nodeValue_of_has hn

theorem nodeValue_slot {s : SlotId} (hn : g.Has n b (.slot s) args) :
    nodeValue types g regs produced (fuel + 1) (some n) = some (.address s) := nodeValue_of_has hn

theorem nodeValue_block {l : Label} {c : BlockId} (hn : g.Has n b (.block l c) args) :
    nodeValue types g regs produced (fuel + 1) (some n) = some (.label l) := nodeValue_of_has hn

theorem nodeValue_produced (hn : g.Has n b (.inst op) args) (hop : op.combine? = none) :
    nodeValue types g regs produced (fuel + 1) (some n) = produced n := by
  simp only [nodeValue_of_has hn, hop]

theorem nodeValue_combine {r q : NodeRef} {f : BitVec 32 → BitVec 32 → NodeValue} {x y : BitVec 32}
    (hn : g.Has n b (.inst op) [r, q]) (hop : op.combine? = some f)
    (hx : (nodeValue types g regs produced fuel r).bind NodeValue.word? = some x)
    (hy : (nodeValue types g regs produced fuel q).bind NodeValue.word? = some y) :
    nodeValue types g regs produced (fuel + 1) (some n) = some (f x y) := by
  simp only [nodeValue_of_has hn, hop, hx, hy, Option.bind_eq_bind, Option.bind_some, pure]

/-- A value stays as it is when more data edges are allowed and more nodes have been reached. -/
theorem nodeValue_mono (hp : ∀ n x, produced n = some x → produced' n = some x) {fuel' : Nat}
    (hfuel : fuel ≤ fuel') {r : NodeRef} {x : NodeValue}
    (h : nodeValue types g regs produced fuel r = some x) :
    nodeValue types g regs produced' fuel' r = some x := by
  induction fuel generalizing fuel' r x with
  | zero => simp [nodeValue] at h
  | succ fuel ih =>
    obtain _ | fuel' := fuel'
    · cases hfuel
    obtain _ | n := r
    · simp [nodeValue] at h
    have hfuel := Nat.le_of_succ_le_succ hfuel
    have hword {r : NodeRef} {y : BitVec 32}
        (hy : (nodeValue types g regs produced fuel r).bind NodeValue.word? = some y) :
        (nodeValue types g regs produced' fuel' r).bind NodeValue.word? = some y := by
      obtain ⟨z, hz, hy⟩ := Option.bind_eq_some_iff.1 hy
      rw [ih hfuel hz]
      exact hy
    simp only [nodeValue, bind, Option.bind_eq_some_iff] at h ⊢
    obtain ⟨node, hnode, h⟩ := h
    refine ⟨node, hnode, ?_⟩
    split at h
    · exact h
    · exact h
    · exact h
    · exact h
    · split at h
      · obtain ⟨y, hy, h⟩ := Option.bind_eq_some_iff.1 h
        obtain ⟨z, hz, h⟩ := Option.bind_eq_some_iff.1 h
        exact Option.bind_eq_some_iff.2 ⟨y, hword hy, Option.bind_eq_some_iff.2 ⟨z, hword hz, h⟩⟩
      · cases h
      · exact hp n x h
    · cases h

/-- The value of a node that has one. -/
def Evaluates (types : TypeTable) (g : Graph Opcode) (regs : Reg → Nat)
    (produced : NodeId → Option NodeValue) (r : NodeRef) (x : NodeValue) : Prop :=
  ∃ n, r = some n ∧ n < g.nodes.size ∧ nodeValue types g regs produced (n + 1) r = some x

theorem Evaluates.read {r : NodeRef} (h : Evaluates types g regs p.produced r x) :
    p.read types g regs r = some x := by
  obtain ⟨n, -, hlt, h⟩ := h
  exact nodeValue_mono (fun _ _ h => h) hlt h

theorem Evaluates.mono {r : NodeRef} (h : Evaluates types g regs produced r x)
    (hp : ∀ n x, produced n = some x → produced' n = some x) :
    Evaluates types g regs produced' r x := by
  obtain ⟨n, hr, hlt, h⟩ := h
  exact ⟨n, hr, hlt, nodeValue_mono hp (Nat.le_refl _) h⟩

/-- An operation that is not on the chain has a value as soon as its operands have. -/
theorem Evaluates.combine {r q : NodeRef} {f : BitVec 32 → BitVec 32 → NodeValue} {k k' : Nat}
    (hn : g.Has n b (.inst op) [r, q]) (hop : op.combine? = some f)
    (hr : Evaluates types g regs produced r (.number k))
    (hq : Evaluates types g regs produced q (.number k')) :
    Evaluates types g regs produced (some n) (f (BitVec.ofNat 32 k) (BitVec.ofNat 32 k')) := by
  obtain ⟨m, rfl, -, hm⟩ := hr
  obtain ⟨m', rfl, -, hm'⟩ := hq
  have hlt : m + 1 ≤ n := hn.2 (some m) (by simp) m rfl
  have hlt' : m' + 1 ≤ n := hn.2 (some m') (by simp) m' rfl
  refine ⟨n, rfl, hn.lt_size, nodeValue_combine hn hop ?_ ?_⟩
  · rw [nodeValue_mono (fun _ _ h => h) hlt hm]
    rfl
  · rw [nodeValue_mono (fun _ _ h => h) hlt' hm']
    rfl

theorem evaluates_slot {s : SlotId} (hn : g.Has n b (.slot s) args) :
    Evaluates types g regs produced (some n) (.address s) :=
  ⟨n, rfl, hn.lt_size, nodeValue_slot hn⟩

theorem evaluates_block {l : Label} {c : BlockId} (hn : g.Has n b (.block l c) args) :
    Evaluates types g regs produced (some n) (.label l) :=
  ⟨n, rfl, hn.lt_size, nodeValue_block hn⟩

theorem evaluates_produced (hn : g.Has n b (.inst op) args) (hop : op.combine? = none)
    (hx : produced n = some x) : Evaluates types g regs produced (some n) x :=
  ⟨n, rfl, hn.lt_size, (nodeValue_produced hn hop).trans hx⟩

/-! ### Nodes on the chain -/

variable {prev : Option Label} {l : Label} {r q : NodeRef} {s : SlotId} {k : Nat}

theorem execNode_phi (hn : g.Has n b (.inst .phi) args)
    (hr : incomingArg types g regs p l args = some r) (hx : Evaluates types g regs p.produced r x) :
    execNode types g regs (some l) n p = some (none, p.produce n x) := by
  obtain ⟨⟨_, hn⟩, -⟩ := hn
  rw [execNode, hn]
  change (incomingArg types g regs p l args).bind (fun r => (p.read types g regs r).bind _) = _
  rw [hr, Option.bind_some, hx.read]
  rfl

theorem execNode_phi_none (hn : g.Has n b (.inst .phi) args) :
    execNode types g regs none n p = none := by
  obtain ⟨⟨_, hn⟩, -⟩ := hn
  rw [execNode, hn]
  rfl

theorem execNode_load (hn : g.Has n b (.inst .movrm32) [r])
    (hr : Evaluates types g regs p.produced r (.address s)) :
    execNode types g regs prev n p = some (none, p.produce n (.number (p.mem s).toNat)) := by
  obtain ⟨⟨_, hn⟩, -⟩ := hn
  rw [execNode, hn]
  change ((p.read types g regs r).bind NodeValue.address?).bind _ = _
  rw [hr.read]
  rfl

theorem execNode_store (hop : op = .movmr32 ∨ op = .movmi32) (hn : g.Has n b (.inst op) [r, q])
    (hr : Evaluates types g regs p.produced r (.address s))
    (hq : Evaluates types g regs p.produced q (.number k)) :
    execNode types g regs prev n p =
      some (none, { p with mem := p.mem.set s (BitVec.ofNat 32 k) }) := by
  obtain ⟨⟨_, hn⟩, -⟩ := hn
  rw [execNode, hn]
  rcases hop with rfl | rfl <;>
  · change ((p.read types g regs r).bind NodeValue.address?).bind (fun _ =>
      ((p.read types g regs q).bind NodeValue.word?).bind _) = _
    rw [hr.read, hq.read]
    rfl

theorem execNode_jmp (hn : g.Has n b (.inst .jmp) [r])
    (hr : Evaluates types g regs p.produced r (.label l)) :
    execNode types g regs prev n p = some (some (.goto l), p) := by
  obtain ⟨⟨_, hn⟩, -⟩ := hn
  rw [execNode, hn]
  change ((p.read types g regs r).bind NodeValue.label?).bind _ = _
  rw [hr.read]
  rfl

theorem execNode_ret (hn : g.Has n b (.inst .ret) [r])
    (hr : Evaluates types g regs p.produced r (.number k)) :
    execNode types g regs prev n p = some (some (.returned (BitVec.ofNat 32 k)), p) := by
  obtain ⟨⟨_, hn⟩, -⟩ := hn
  rw [execNode, hn]
  change ((p.read types g regs r).bind NodeValue.word?).bind _ = _
  rw [hr.read]
  rfl

theorem execNode_jump {fl : Flags} {taken : Bool} (htaken : fl.taken op = some taken)
    (hn : g.Has n b (.inst op) [r, q]) (hr : Evaluates types g regs p.produced r (.flags fl))
    (hq : Evaluates types g regs p.produced q (.label l)) :
    execNode types g regs prev n p = some (if taken then some (.goto l) else none, p) := by
  obtain ⟨⟨_, hn⟩, -⟩ := hn
  rw [execNode, hn]
  cases op <;> cases htaken <;>
  · change ((p.read types g regs r).bind NodeValue.flags?).bind (fun _ =>
      ((p.read types g regs q).bind NodeValue.label?).bind _) = _
    rw [hr.read, hq.read]
    rfl

theorem runChain_cons {p' : Progress} {rest : List NodeId}
    (h : execNode types g regs prev n p = some (none, p')) :
    runChain types g regs prev (n :: rest) p = runChain types g regs prev rest p' := by
  rw [runChain, h]

theorem runChain_exit {p' : Progress} {rest : List NodeId} {e : Exit Label}
    (h : execNode types g regs prev n p = some (some e, p')) :
    runChain types g regs prev (n :: rest) p = some (e, p'.mem) := by
  rw [runChain, h]

end Values

end Codegen.X86
