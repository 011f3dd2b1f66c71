import Codegen.Proofs.Agreement
import Codegen.Proofs.Drawing
import Codegen.Proofs.GraphMeaning

/-!
# Running a block and its graph side by side

Where a block starts, every register holds some number, and these numbers are the values of all
results that the block may read from elsewhere. While the block and its graph run side by side, the
node of an instruction that has been passed evaluates to its result, or to the flags that decide it
if it is a comparison. The nodes of the other instructions have produced nothing yet.

## Main definitions

* `Source.frameAt`, `Inputs.ofRegs`: what a run knows where a block starts.
* `X86.Plan`: a graph together with what is known about its source.
* `X86.Tracks`: a frame and the progress along a chain that know the same.

## Main results

* `X86.Tracks.operand`: the node of an operand evaluates to what its value means.
* `X86.Tracks.step`, `X86.Tracks.exit`: one instruction and its nodes.
-/

namespace Codegen

/-- The result of an instruction where a block starts: the address of a slot, or what its register
holds. -/
def Source.resultAt (src : Source) (regs : Reg → Nat) (i : InstrId) : Option Datum :=
  src.func.instrs[i]?.map fun ins =>
    if src.func.isAlloca i then .address (src.func.slotOf i)
    else .number (BitVec.ofNat (src.types.width ins.type) (regs (src.func.regOf ins.result))).toNat

/-- What a run knows where a block starts. -/
def Source.frameAt (src : Source) (regs : Reg → Nat) (mem : Memory) : Frame where
  results := src.resultAt regs
  mem := mem

/-- The arguments are held by the first registers. -/
def Inputs.ofRegs (regs : Reg → Nat) (place : SlotId → Nat) : Inputs where
  args n := regs (Reg.virtual n)
  place := place

namespace X86

variable {src : Source} {t : Builder Opcode} {regs : Reg → Nat} {place : SlotId → Nat}
  {fr fr' : Frame} {p p' : Progress} {b : BlockId} {i j : InstrId} {v : ValueId} {r : NodeRef}
  {before after : List InstrId} {op : Operation} {result : Conversion.Result}

/-- A graph that a builder has completed, together with what is known about its source. -/
structure Plan (src : Source) (t : Builder Opcode) : Prop where
  consistent : src.func.Consistent
  wellFormed : src.func.WellFormed
  wellTyped : src.WellTyped
  void : src.types.kind TypeId.void = .void
  sound : Sound src t
  regs : t.graph.regs = t.context.regs

/-- A frame and the progress along the chain of a block that know the same when the instructions
`before` have been passed. -/
structure Tracks (src : Source) (t : Builder Opcode) (regs : Reg → Nat) (before : List InstrId)
    (fr : Frame) (p : Progress) : Prop where
  mem : p.mem = fr.mem
  /-- What has not been passed is as it was where the block started. -/
  entry : ∀ {j}, j ∉ before → fr.results j = src.resultAt regs j
  address : ∀ {j}, src.func.isAlloca j = true → fr.results j = some (.address (src.func.slotOf j))
  /-- A number is what the node evaluates to. -/
  number : ∀ {j op result}, j ∈ before → src.func.opOf j = some op → op.isCarried = true →
    t.memo[j]? = some (.converted result) → ∃ k, fr.results j = some (.number k) ∧
      Evaluates src.types t.graph regs p.produced result.value (.number k)
  /-- The flags of a comparison decide it. -/
  flags : ∀ {j pred type x y cmp result}, j ∈ before →
    src.func.opOf j = some (.icmp pred type x y) →
    comparison src t.context j pred x y = .ok cmp → t.memo[j]? = some (.converted result) →
    ∃ fl holds, Flags.taken fl cmp.jump = some holds ∧
      fr.results j = some (.number holds.toNat) ∧
      Evaluates src.types t.graph regs p.produced result.value (.flags fl)
  fresh : ∀ {j result n}, j ∉ before → t.memo[j]? = some (.converted result) →
    some n ∈ result.chain → p.produced n = none

/-! ### Operands -/

/-- A leaf evaluates to what its value means where the block starts. -/
theorem Leaf.evaluates (P : Plan src t) (h : Leaf src t.graph b v r)
    (hin : ∀ k, src.func.values[v]? = some (.result k) → k ∈ src.func.inserted)
    (produced : NodeId → Option NodeValue) (mem : Memory) :
    ∃ k, src.evalValue (.ofRegs regs place) (src.frameAt regs mem) v = some (.number k) ∧
      Evaluates src.types t.graph regs produced r (.number k) := by
  have hnaming := P.consistent.toNaming
  cases h with
  | @reg n hv ha hn =>
    have hnode : nodeValue src.types t.graph regs produced (n + 1) (some n) = _ := nodeValue_vreg hn
    rw [P.regs, regWidth_regOf P.sound.ready hv] at hnode
    refine ⟨_, ?_, n, rfl, hn.lt_size, hnode⟩
    rcases hv.cases hnaming with ⟨m, ty, hval⟩ | ⟨i, ins, hi, hins, hres, rfl⟩
    · rw [Source.widthOf_eq (Func.valueType_arg hval),
        Func.regOf_param hnaming (hnaming.arg_param hval)]
      simp [Source.evalValue, hval, Inputs.ofRegs]
    · have hval := hnaming.result_value hins
      rw [Source.widthOf_eq (Func.valueType_result hnaming hins)]
      simp [Source.evalValue, hval, Source.frameAt, Source.resultAt, hins, ha i hval]
  | @imm n x ty bits hx hu ht hbits hn =>
    have hres : ∀ k, x = .result k → k ∈ src.func.inserted := fun k hk => hin k (hk ▸ hx)
    obtain ⟨payload, rfl, hw⟩ := hu.eq_const hnaming hx hres ht hbits
    refine ⟨_, ?_, n, rfl, hn.lt_size, nodeValue_imm hn⟩
    simp [Source.evalValue, hx, hw, Value.payload]

/-- A word that the node of an instruction stands for is carried to where it is read. -/
theorem Plan.isCarried (P : Plan src t) (hv : src.func.values[v]? = some (.result j))
    (hw : src.isWord v = true) (ha : src.func.isAlloca j = false)
    (hm : t.memo[j]? = some (.converted result)) :
    ∃ op, src.func.opOf j = some op ∧ op.isCarried = true := by
  obtain ⟨b, op, hb, hop, hconv⟩ := P.sound.converted hm
  refine ⟨op, hop, ?_⟩
  obtain ⟨ins, hins, rfl⟩ := P.consistent.value_result hv
  have hin : j ∈ src.func.inserted := Func.mem_inserted.2 ⟨b, P.consistent.mem_instrsOf.2 hb⟩
  have hopIns : ins.op = some op := by simpa [Func.opOf, hins] using hop
  have htype : src.types.isInt op.type 32 = true := by
    simpa [Source.isWord, Func.valueType_result P.consistent.toNaming hins, Codegen.Instr.type,
      hopIns] using hw
  have hvoid : src.types.isInt TypeId.void 32 = false := by
    have hkind := P.void
    unfold TypeTable.kind at hkind
    unfold TypeTable.isInt
    split
    · next hget =>
      rw [hget] at hkind
      cases hkind
    · rfl
  cases hconv with
  | phi | load | binary => rfl
  | alloca => simp [Func.isAlloca, hop] at ha
  | icmp =>
    obtain ⟨hbit, -⟩ := P.wellTyped j hin _ hop
    have hwidth := (TypeTable.width_of_isInt hbit).symm.trans (TypeTable.width_of_isInt htype)
    cases hwidth
  | store | br | condBr | ret => simp [Operation.type, hvoid] at htype

/-- The node of an operand evaluates to what its value means. -/
theorem Tracks.operand (P : Plan src t) (T : Tracks src t regs before fr p)
    (hr : src.func.Reachable b) (hb : src.func.instrsOf b = before ++ i :: after)
    (hop : src.func.opOf i = some op) (hphi : op.isPhi = false) (hv : v ∈ op.args)
    (hw : src.isWord v = true) (hd : Denotes src t b v r) :
    ∃ k, src.evalValue (.ofRegs regs place) fr v = some (.number k) ∧
      Evaluates src.types t.graph regs p.produced r (.number k) := by
  have huses := P.wellFormed.uses b hr before i after op hb hop hphi v hv
  cases hd with
  | @produced j result hval hj ha hm =>
    obtain ⟨d, hd, ⟨-, hbefore⟩ | ⟨hne, -⟩⟩ := huses j hval
    · obtain ⟨op', hop', hcarried⟩ := P.isCarried hval hw ha hm
      obtain ⟨k, hk, hnode⟩ := T.number hbefore hop' hcarried hm
      exact ⟨k, by simp [Source.evalValue, hval, hk], hnode⟩
    · exact absurd (Option.some.inj (hd.symm.trans hj)) hne
  | leaf hleaf helse =>
    have hin : ∀ k, src.func.values[v]? = some (.result k) → k ∈ src.func.inserted := fun k hk => by
      obtain ⟨d, hd, -⟩ := huses k hk
      exact Func.mem_inserted.2 ⟨d, P.consistent.mem_instrsOf.2 hd⟩
    obtain ⟨k, hk, hnode⟩ : ∃ k, src.evalValue (.ofRegs regs place) (src.frameAt regs fr.mem) v =
        some (.number k) ∧ Evaluates src.types t.graph regs p.produced r (.number k) :=
      hleaf.evaluates P hin p.produced fr.mem
    refine ⟨k, ?_, hnode⟩
    rw [← hk]
    refine evalValue_congr fun j hj => T.entry fun hbefore => helse j hj ?_
    exact P.consistent.mem_instrsOf.1 (by simp [hb, hbefore])

/-- The slot whose address an instruction reads. -/
theorem Tracks.evalSlot (T : Tracks src t regs before fr p) {inp : Inputs}
    (hv : src.func.values[v]? = some (.result j)) (ha : src.func.isAlloca j = true) :
    src.evalSlot inp fr v = some (src.func.slotOf j) := by
  simp [Source.evalSlot, Source.evalValue, hv, T.address ha, Datum.address?]

/-! ### Passing an instruction -/

/-- Passing an instruction changes nothing but its own result and what its own nodes have produced.
-/
theorem Tracks.push (P : Plan src t) (T : Tracks src t regs before fr p)
    (hb : src.func.instrsOf b = before ++ i :: after) (hop : src.func.opOf i = some op)
    (hm : t.memo[i]? = some (.converted result)) (hmem : p'.mem = fr'.mem)
    (hres : ∀ j, j ≠ i → fr'.results j = fr.results j)
    (hsame : ∀ n, some n ∉ result.chain → p'.produced n = p.produced n)
    (ha : src.func.isAlloca i = true → fr'.results i = some (.address (src.func.slotOf i)))
    (hnumber : op.isCarried = true → ∃ k, fr'.results i = some (.number k) ∧
      Evaluates src.types t.graph regs p'.produced result.value (.number k))
    (hflags : ∀ pred type x y cmp, op = .icmp pred type x y →
      comparison src t.context i pred x y = .ok cmp →
      ∃ fl holds, Flags.taken fl cmp.jump = some holds ∧
        fr'.results i = some (.number holds.toNat) ∧
        Evaluates src.types t.graph regs p'.produced result.value (.flags fl)) :
    Tracks src t regs (before ++ [i]) fr' p' := by
  have hnot : i ∉ before := by
    have hnodup := hb ▸ P.consistent.nodup_instrsOf b
    exact fun hi => (List.nodup_append.1 hnodup).2.2 i hi i List.mem_cons_self rfl
  -- What was produced before stays, since the nodes of the instruction have produced nothing yet.
  have hmono (n : NodeId) (x : NodeValue) (hx : p.produced n = some x) :
      p'.produced n = some x := by
    rw [hsame n, hx]
    intro hn
    rw [T.fresh hnot hm hn] at hx
    cases hx
  have hold {j : InstrId} (hj : j ∈ before) : fr'.results j = fr.results j :=
    hres j fun he => hnot (he ▸ hj)
  refine ⟨hmem, fun {j} hj => ?_, fun {j} hj => ?_, fun {j op' result'} hj hop' hc hm' => ?_,
    fun {j pred type x y cmp result'} hj hop' hcmp hm' => ?_, fun {j result' n} hj hm' hn => ?_⟩
  · obtain ⟨hj, hne⟩ := not_or.1 (mt List.mem_append.2 hj)
    rw [hres j (mt List.mem_singleton.2 hne), T.entry hj]
  · by_cases hji : j = i
    · subst hji
      exact ha hj
    · rw [hres j hji, T.address hj]
  · rcases List.mem_append.1 hj with hj | hj
    · obtain ⟨k, hk, hnode⟩ := T.number hj hop' hc hm'
      exact ⟨k, (hold hj).trans hk, hnode.mono hmono⟩
    · obtain rfl := List.mem_singleton.1 hj
      cases hm.symm.trans hm'
      cases hop.symm.trans hop'
      exact hnumber hc
  · rcases List.mem_append.1 hj with hj | hj
    · obtain ⟨fl, holds, htaken, hk, hnode⟩ := T.flags hj hop' hcmp hm'
      exact ⟨fl, holds, htaken, (hold hj).trans hk, hnode.mono hmono⟩
    · obtain rfl := List.mem_singleton.1 hj
      cases hm.symm.trans hm'
      cases hop.symm.trans hop'
      exact hflags _ _ _ _ _ rfl hcmp
  · obtain ⟨hj, hne⟩ := not_or.1 (mt List.mem_append.2 hj)
    rw [hsame n, T.fresh hj hm' hn]
    exact P.sound.disjoint hm' hm (mt List.mem_singleton.2 hne) (some n) hn

/-- An instruction and its nodes do the same. -/
def Follows (src : Source) (t : Builder Opcode) (regs : Reg → Nat) (place : SlotId → Nat)
    (before : List InstrId) (i : InstrId) (op : Operation) (ns : List NodeId) (fr : Frame)
    (p : Progress) : Prop :=
  ∃ fr' p', src.execOp (.ofRegs regs place) i op fr = some fr' ∧
    (∀ prev rest, runChain src.types t.graph regs prev (ns ++ rest) p =
      runChain src.types t.graph regs prev rest p') ∧
    Tracks src t regs (before ++ [i]) fr' p'

/-- A terminator and its nodes leave the block for the same place. -/
def Leaves (src : Source) (t : Builder Opcode) (regs : Reg → Nat) (place : SlotId → Nat)
    (op : Operation) (ns : List NodeId) (fr : Frame) (p : Progress) : Prop :=
  ∃ e, src.exitOf (.ofRegs regs place) op fr = some e ∧
    (∀ prev rest, runChain src.types t.graph regs prev (ns ++ rest) p =
      some (e.map (· + 1), p.mem)) ∧
    ∀ target, e = .goto target → target ∈ op.successors

section Step

variable (P : Plan src t) (hr : src.func.Reachable b)
  (hb : src.func.instrsOf b = before ++ i :: after) (T : Tracks src t regs before fr p)

include P hb T

theorem Tracks.stepAlloca {ty e : TypeId} {k : UInt64} {a : UInt32}
    (hop : src.func.opOf i = some (.alloca ty e k a)) (hm : t.memo[i]? = some (.converted {})) :
    Follows src t regs place before i (.alloca ty e k a) [] fr p := by
  refine ⟨fr.set i (.address (src.func.slotOf i)), p, rfl, fun _ _ => rfl, ?_⟩
  exact T.push P hb hop hm T.mem (fun j hj => fr.results_set_of_ne hj _) (fun _ _ => rfl)
    (fun _ => fr.results_set_self i _) (fun hc => by cases hc) (fun _ _ _ _ _ he => by cases he)

theorem Tracks.stepLoad {ty : TypeId} {addr : ValueId} {m n : NodeId}
    (hop : src.func.opOf i = some (.load ty addr))
    (hm : t.memo[i]? = some (.converted (.chained n))) (ht : src.types.isInt ty 32 = true)
    (haddr : src.func.values[addr]? = some (.result j)) (ha : src.func.isAlloca j = true)
    (hslot : t.graph.Has m b (.slot (src.func.slotOf j)) [])
    (hn : t.graph.Has n b (.inst .movrm32) [some m]) :
    Follows src t regs place before i (.load ty addr) [n] fr p := by
  let x := (fr.mem (src.func.slotOf j)).toNat
  have haddress : Evaluates src.types t.graph regs p.produced (some m) _ := evaluates_slot hslot
  refine ⟨fr.set i (.number x), p.produce n (.number x), ?_, fun prev rest => ?_, ?_⟩
  · simp [Source.execOp, ht, T.evalSlot haddr ha, x]
  · rw [show x = (p.mem (src.func.slotOf j)).toNat by rw [T.mem]]
    exact runChain_cons (execNode_load hn haddress)
  · refine T.push P hb hop hm T.mem (fun j hj => fr.results_set_of_ne hj _) (fun k hk => ?_)
      (fun ha => ?_) (fun _ => ⟨x, fr.results_set_self i _, ?_⟩) (fun _ _ _ _ _ he => by cases he)
    · refine p.produced_produce_of_ne (fun he => hk ?_) _
      exact List.mem_singleton.2 (congrArg some he)
    · simp [Func.isAlloca, hop] at ha
    · exact evaluates_produced hn rfl (p.produced_produce_self n _)

include hr

theorem Tracks.stepStore {w addr : ValueId} {m n : NodeId} {isConst : Bool}
    (hop : src.func.opOf i = some (.store w addr))
    (hm : t.memo[i]? = some (.converted (.chained n))) (hw : src.isWord w = true)
    (haddr : src.func.values[addr]? = some (.result j)) (ha : src.func.isAlloca j = true)
    (hslot : t.graph.Has m b (.slot (src.func.slotOf j)) []) (hd : Denotes src t b w r)
    (hn : t.graph.Has n b (.inst (if isConst then .movmi32 else .movmr32)) [some m, r]) :
    Follows src t regs place before i (.store w addr) [n] fr p := by
  obtain ⟨k, hk, hnode⟩ : ∃ k, src.evalValue (.ofRegs regs place) fr w = some (.number k) ∧ _ :=
    T.operand P hr hb hop rfl (by simp [Operation.args]) hw hd
  have haddress : Evaluates src.types t.graph regs p.produced (some m) _ := evaluates_slot hslot
  have hform : (if isConst then Opcode.movmi32 else .movmr32) = .movmr32 ∨
      (if isConst then Opcode.movmi32 else .movmr32) = .movmi32 := by cases isConst <;> simp
  refine ⟨fr.store (src.func.slotOf j) (BitVec.ofNat 32 k), _, ?_,
    fun prev rest => runChain_cons (execNode_store hform hn haddress hnode), ?_⟩
  · simp [Source.execOp, T.evalSlot haddr ha, Source.evalWord, hw, Source.evalNumber, hk,
      Datum.number?]
  · refine T.push P hb hop hm (by rw [T.mem]; rfl) (fun _ _ => rfl) (fun _ _ => rfl) (fun ha => ?_)
      (fun hc => by cases hc) (fun _ _ _ _ _ he => by cases he)
    simp [Func.isAlloca, hop] at ha

theorem Tracks.stepBinary {op : BinaryOp} {ty : TypeId} {x y : ValueId} {rr ri : Opcode}
    {q : NodeRef} {n : NodeId} {isConst : Bool} (hop : src.func.opOf i = some (.binary op ty x y))
    (hm : t.memo[i]? = some (.converted (.unchained n))) (hrr : binaryOpcodes op = some (rr, ri))
    (ht : src.types.isInt ty 32 = true) (hx : Denotes src t b x r) (hy : Denotes src t b y q)
    (hn : t.graph.Has n b (.inst (if isConst then ri else rr)) [r, q]) :
    Follows src t regs place before i (.binary op ty x y) [] fr p := by
  obtain ⟨htx, hty⟩ := P.wellTyped i (Func.mem_inserted.2 ⟨b, by simp [hb]⟩) _ hop
  obtain ⟨k, hk, hnode⟩ : ∃ k, src.evalValue (.ofRegs regs place) fr x = some (.number k) ∧ _ :=
    T.operand P hr hb hop rfl (by simp [Operation.args]) (isWord_of_valueType htx ht) hx
  obtain ⟨k', hk', hnode'⟩ : ∃ k, src.evalValue (.ofRegs regs place) fr y = some (.number k) ∧ _ :=
    T.operand P hr hb hop rfl (by simp [Operation.args]) (isWord_of_valueType hty ht) hy
  obtain ⟨f, z, hf, hz, hfz⟩ : ∃ f z, (if isConst then ri else rr).combine? = some f ∧
      op.eval? (BitVec.ofNat 32 k) (BitVec.ofNat 32 k') = some z ∧
      f (BitVec.ofNat 32 k) (BitVec.ofNat 32 k') = .number z.toNat := by
    cases op <;> cases hrr <;> cases isConst <;> exact ⟨_, _, rfl, rfl, rfl⟩
  refine ⟨fr.set i (.number z.toNat), p, ?_, fun _ _ => rfl, ?_⟩
  · simp only [Source.execOp, Source.evalNumber, hk, hk', Option.bind_eq_bind, Option.bind_some,
      Datum.number?]
    rw [TypeTable.width_of_isInt ht, hz]
    rfl
  · refine T.push P hb hop hm T.mem (fun j hj => fr.results_set_of_ne hj _) (fun _ _ => rfl)
      (fun ha => ?_) (fun _ => ⟨z.toNat, fr.results_set_self i _, ?_⟩)
      (fun _ _ _ _ _ he => by cases he)
    · simp [Func.isAlloca, hop] at ha
    · rw [← hfz]
      exact .combine hn hf hnode hnode'

theorem Tracks.stepIcmp {pred : Predicate} {ty : TypeId} {x y : ValueId} {cmp : Comparison}
    {q : NodeRef} {n : NodeId} {isConst : Bool} (hop : src.func.opOf i = some (.icmp pred ty x y))
    (hm : t.memo[i]? = some (.converted (.unchained n)))
    (hcmp : comparison src t.context i pred x y = .ok cmp) (hx : Denotes src t b cmp.x r)
    (hy : Denotes src t b cmp.y q)
    (hn : t.graph.Has n b (.inst (if isConst then .cmpri32 else .cmprr32)) [r, q]) :
    Follows src t regs place before i (.icmp pred ty x y) [] fr p := by
  obtain ⟨-, -, hty⟩ := P.wellTyped i (Func.mem_inserted.2 ⟨b, by simp [hb]⟩) _ hop
  obtain ⟨hwx, hcompares⟩ := comparison_eq_ok hcmp
  have hwy : src.isWord y = true := by rwa [Source.isWord, hty, ← Source.isWord]
  have hread (v : ValueId) (hv : v ∈ [x, y]) {r : NodeRef} (hd : Denotes src t b v r) :
      ∃ k, src.evalValue (.ofRegs regs place) fr v = some (.number k) ∧
        Evaluates src.types t.graph regs p.produced r (.number k) :=
    T.operand P hr hb hop rfl hv (by rcases List.mem_pair.1 hv with rfl | rfl <;> assumption) hd
  have hmem : cmp.x ∈ [x, y] ∧ cmp.y ∈ [x, y] := by cases hcompares <;> simp
  obtain ⟨k, hk, hnode⟩ := hread cmp.x hmem.1 hx
  obtain ⟨k', hk', hnode'⟩ := hread cmp.y hmem.2 hy
  obtain ⟨holds, hholds, htaken⟩ := hcompares.taken hwx hk hk'
  have hflags : Evaluates src.types t.graph regs p.produced (some n)
      (.flags (.ofSub (BitVec.ofNat 32 k) (BitVec.ofNat 32 k'))) :=
    .combine hn (by cases isConst <;> rfl) hnode hnode'
  refine ⟨fr.set i (.number holds.toNat), p, ?_, fun _ _ => rfl, ?_⟩
  · simp [Source.execOp, hholds]
  · refine T.push P hb hop hm T.mem (fun j hj => fr.results_set_of_ne hj _) (fun _ _ => rfl)
      (fun ha => ?_) (fun hc => by cases hc) (fun pred' ty' x' y' cmp' he hcmp' => ?_)
    · simp [Func.isAlloca, hop] at ha
    · cases he
      cases hcmp.symm.trans hcmp'
      exact ⟨_, holds, htaken, fr.results_set_self i _, hflags⟩

/-- An instruction that is no phi and no terminator does the same as its nodes. -/
theorem Tracks.step {ns : List NodeId} (hop : src.func.opOf i = some op) (hphi : op.isPhi = false)
    (hterm : op.isTerminator = false) (hm : t.memo[i]? = some (.converted result))
    (hns : result.chain = ns.map some) (hconv : Converted src t b i op result) :
    Follows src t regs place before i op ns fr p := by
  have hchain (ns' : List NodeId) (h : result.chain = ns'.map some) : ns' = ns :=
    (List.map_inj_right fun _ _ => Option.some.inj).1 (h.symm.trans hns)
  cases hconv with
  | alloca =>
    obtain rfl := hchain [] rfl
    exact T.stepAlloca P hb hop hm
  | phi => cases hphi
  | @load _ _ _ _ n ht haddr ha hslot hn =>
    obtain rfl := hchain [n] rfl
    exact T.stepLoad P hb hop hm ht haddr ha hslot hn
  | @store _ _ _ _ n _ _ hw haddr ha hslot hd hn =>
    obtain rfl := hchain [n] rfl
    exact T.stepStore P hr hb hop hm hw haddr ha hslot hd hn
  | binary hrr ht hx hy hn =>
    obtain rfl := hchain [] rfl
    exact T.stepBinary P hr hb hop hm hrr ht hx hy hn
  | icmp hcmp hx hy hn =>
    obtain rfl := hchain [] rfl
    exact T.stepIcmp P hr hb hop hm hcmp hx hy hn
  | br | condBr | ret => cases hterm

theorem Tracks.exitCondBr {cond x y : ValueId} {l e : BlockId} {pred : Predicate} {ty : TypeId}
    {cmp : Comparison} {m n m' n' : NodeId} (hop : src.func.opOf i = some (.condBr cond l e))
    (hcond : src.func.values[cond]? = some (.result j)) (hj : src.func.blockOf j = some b)
    (hicmp : src.func.opOf j = some (.icmp pred ty x y))
    (hcmp : comparison src t.context j pred x y = .ok cmp)
    (hm : t.memo[j]? = some (.converted result)) (hl : t.graph.Has m b (.block (l + 1) l) [])
    (hn : t.graph.Has n b (.inst cmp.jump) [result.value, some m])
    (he : t.graph.Has m' b (.block (e + 1) e) []) (hn' : t.graph.Has n' b (.inst .jmp) [some m']) :
    Leaves src t regs place (.condBr cond l e) [n, n'] fr p := by
  have hbefore : j ∈ before := by
    obtain ⟨d, hd, ⟨-, hbefore⟩ | ⟨hne, -⟩⟩ :=
      P.wellFormed.uses b hr before i after _ hb hop rfl cond (by simp [Operation.args]) j hcond
    · exact hbefore
    · exact absurd (Option.some.inj (hd.symm.trans hj)) hne
  obtain ⟨fl, holds, htaken, hholds, hflags⟩ := T.flags hbefore hicmp hcmp hm
  refine ⟨.goto (if holds then l else e), ?_, fun prev rest => ?_, ?_⟩
  · cases holds <;>
      simp [Source.exitOf, Source.evalNumber, Source.evalValue, hcond, hholds, Datum.number?]
  · have hjump : execNode src.types t.graph regs prev n p =
        some (if holds then some (.goto (l + 1)) else none, p) :=
      execNode_jump htaken hn hflags (evaluates_block hl)
    cases holds with
    | true => exact runChain_exit hjump
    | false =>
      exact (runChain_cons hjump).trans (runChain_exit (execNode_jmp hn' (evaluates_block he)))
  · rintro target ⟨⟩
    split <;> simp [Operation.successors]

/-- A terminator leaves the block for the same place as its nodes. -/
theorem Tracks.exit {ns : List NodeId} (hop : src.func.opOf i = some op)
    (hterm : op.isTerminator = true) (hns : result.chain = ns.map some)
    (hconv : Converted src t b i op result) : Leaves src t regs place op ns fr p := by
  have hchain (ns' : List NodeId) (h : result.chain = ns'.map some) : ns' = ns :=
    (List.map_inj_right fun _ _ => Option.some.inj).1 (h.symm.trans hns)
  cases hconv with
  | alloca | phi | load | store | binary | icmp => cases hterm
  | @br target m n hm hn =>
    obtain rfl := hchain [n] rfl
    refine ⟨.goto target, rfl, fun prev rest => ?_, ?_⟩
    · exact runChain_exit (execNode_jmp hn (evaluates_block hm))
    · rintro _ ⟨⟩
      simp [Operation.successors]
  | @condBr _ _ _ _ _ _ _ _ _ _ _ n _ n' hcond hj hicmp hcmp hm hl hn he hn' =>
    obtain rfl := hchain [n, n'] rfl
    exact T.exitCondBr P hr hb hop hcond hj hicmp hcmp hm hl hn he hn'
  | @ret w r n hw hd hn =>
    obtain rfl := hchain [n] rfl
    obtain ⟨k, hk, hnode⟩ : ∃ k, src.evalValue (.ofRegs regs place) fr w = some (.number k) ∧ _ :=
      T.operand P hr hb hop rfl (by simp [Operation.args]) hw hd
    refine ⟨.returned (BitVec.ofNat 32 k), ?_, fun prev rest => ?_, fun _ he => by cases he⟩
    · simp [Source.exitOf, Source.evalWord, hw, Source.evalNumber, hk, Datum.number?]
    · exact runChain_exit (execNode_ret hn hnode)

end Step

end X86

end Codegen
