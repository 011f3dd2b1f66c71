import Codegen.Func.Check
import Codegen.Proofs.Dominators

/-!
# The check accepts exactly the well-formed functions

A function with a body is well formed if its blocks have the right shape and every operand is
defined where it is used. Both are said here in terms of the lists of instructions and of paths from
the entry. The check walks over the instructions and asks the computed dominators.

## Main definitions

* `Func.Shaped`: a block that is not empty, ends with its only terminator and has its phis first.
* `Func.PhiFormed`: a phi with one incoming value for each predecessor, available at its end.
* `Func.UsesDefined`: an instruction that reads only what is defined before.
* `Func.WellFormed`: the functions whose blocks and instructions are like this.

## Main results

* `Func.checkBlocks_eq_ok`, `Func.checkUses_eq_ok`: what each half of the check accepts.
* `Func.check_eq_ok_iff`: the check accepts declarations and well-formed functions, and nothing
  else.
-/

namespace Codegen.Func

variable {f : Func} {types : TypeTable} {b c : BlockId} {i j : InstrId} {v : ValueId}

/-! ### Well-formed functions -/

/-- Whether an instruction ends a block. -/
def Terminates (f : Func) (i : InstrId) : Prop := ∃ op, f.opOf i = some op ∧ op.isTerminator = true

/-- Whether an instruction is a phi. -/
def IsPhi (f : Func) (i : InstrId) : Prop := ∃ op, f.opOf i = some op ∧ op.isPhi = true

/-- A block that is not empty, whose last instruction and no other is a terminator, and whose phis
stand before all other instructions. -/
structure Shaped (f : Func) (b : BlockId) : Prop where
  ne_nil : f.instrsOf b ≠ []
  terminates_iff : ∀ {before i after}, f.instrsOf b = before ++ i :: after →
    (f.Terminates i ↔ after = [])
  phis_first : ∀ {before i after}, f.instrsOf b = before ++ i :: after → f.IsPhi i →
    ∀ j ∈ before, f.IsPhi j

/-- A phi whose incoming blocks are the predecessors of its block, in any order. What comes from a
reachable predecessor is no result of an instruction, or it is the result of one in a block that
dominates the predecessor. -/
structure PhiFormed (f : Func) (b : BlockId) (incoming : List (ValueId × BlockId)) : Prop where
  perm : (incoming.map (·.2)).Perm (f.predsOf b)
  available : ∀ {v c j}, (v, c) ∈ incoming → f.Reachable c → f.values[v]? = some (.result j) →
    ∃ d, f.blockOf j = some d ∧ f.Dominates d c

/-- Operands of an instruction behind `before` in block `b` that are results come from an
instruction earlier in the same block or from one in another block that dominates `b`. -/
def UsesDefined (f : Func) (b : BlockId) (before : List InstrId) (args : List ValueId) : Prop :=
  ∀ v ∈ args, ∀ j, f.values[v]? = some (.result j) → ∃ d, f.blockOf j = some d ∧
    (d = b ∧ j ∈ before ∨ d ≠ b ∧ f.Dominates d b)

/-- Functions whose blocks have the right shape and whose operands are defined where they are used.
-/
structure WellFormed (f : Func) : Prop where
  shaped : ∀ b < f.blocks.size, f.Shaped b
  phis : ∀ b, ∀ i ∈ f.instrsOf b, ∀ t incoming, f.opOf i = some (.phi t incoming) →
    f.PhiFormed b incoming
  uses : ∀ b, f.Reachable b → ∀ before i after op, f.instrsOf b = before ++ i :: after →
    f.opOf i = some op → op.isPhi = false → f.UsesDefined b before op.args

/-- The operands of the inserted instructions are values of the function. -/
def OperandsExist (f : Func) : Prop :=
  ∀ i ∈ f.inserted, ∀ op ∈ f.opOf i, ∀ v ∈ op.args, v < f.values.size

instance (f : Func) : Decidable f.OperandsExist :=
  inferInstanceAs (Decidable (∀ i ∈ f.inserted, ∀ op ∈ f.opOf i, ∀ v ∈ op.args, v < f.values.size))

/-! ### Looking up -/

theorem block_eq_ok {blk : Block} : f.block b = .ok blk ↔ f.blocks[b]? = some blk := by
  unfold block
  split <;> simp_all

theorem instr_eq_ok {ins : Instr} : f.instr i = .ok ins ↔ f.instrs[i]? = some ins := by
  unfold instr
  split <;> simp_all

theorem value_eq_ok {x : Value} : f.value v = .ok x ↔ f.values[v]? = some x := by
  unfold value
  split <;> simp_all

theorem definingInstr_eq_ok {o : Option InstrId} :
    f.definingInstr v = .ok o ↔ ∃ x, f.values[v]? = some x ∧ x.instr? = o := by
  simp only [definingInstr, Except.bind_eq_ok, value_eq_ok, Except.pure_eq_ok]

theorem malformed_ne_ok {α : Type} {blk : BlockId × Block} {o : Option InstrId} {flaw : Flaw}
    {a : α} : f.malformed blk o flaw ≠ .ok a := by
  simp [malformed]

theorem map_fst_layout (f : Func) : f.layout.map (·.1) = f.blockIds := by
  rw [layout, List.map_fst_zip (by simp [blockIds])]

theorem mem_map_fst_layout : b ∈ f.layout.map Prod.fst ↔ b < f.blocks.size := by
  rw [map_fst_layout, blockIds, List.mem_range]

theorem nodup_map_fst_layout (f : Func) : (f.layout.map Prod.fst).Nodup := by
  rw [map_fst_layout]
  exact List.nodup_range

/-- The blocks with their numbers are those that a number leads to. -/
theorem mem_layout {blk : Block} : (b, blk) ∈ f.layout ↔ f.blocks[b]? = some blk := mem_zip_range

theorem getElem?_layout {n : Nat} {blk : Block} (h : f.layout[n]? = some (b, blk)) : b = n := by
  rw [layout, blockIds, List.getElem?_zip_eq_some] at h
  obtain ⟨_, rfl⟩ := List.getElem?_eq_some_iff.1 h.1
  simp

theorem mem_inserted : i ∈ f.inserted ↔ ∃ b, i ∈ f.instrsOf b := by
  simp only [inserted, List.mem_flatMap, Array.mem_toList_iff]
  constructor
  · rintro ⟨blk, hblk, hi⟩
    obtain ⟨b, hb, rfl⟩ := Array.getElem_of_mem hblk
    exact ⟨b, by rwa [instrs_eq_instrsOf (Array.getElem?_eq_getElem hb)]⟩
  · rintro ⟨b, hi⟩
    have hb := lt_size_of_mem_instrsOf hi
    rw [instrs_eq_instrsOf (Array.getElem?_eq_getElem hb)] at hi
    exact ⟨_, Array.getElem_mem hb, hi⟩

/-- The instructions of all blocks, from the list of the blocks with their numbers. -/
theorem flatMap_layout (f : Func) : f.layout.flatMap (·.2.instrs) = f.inserted := by
  have hsnd : f.layout.map Prod.snd = f.blocks.toList := List.map_snd_zip (by simp [blockIds])
  rw [inserted, ← hsnd, List.flatMap_map]

theorem inserted_eq_flatMap (f : Func) : f.inserted = f.blockIds.flatMap f.instrsOf := by
  rw [← map_fst_layout, List.flatMap_map, ← flatMap_layout]
  exact List.flatMap_congr fun x hx => (instrs_eq_instrsOf (mem_layout.1 hx)).symm

theorem isTerminator_iff {ins : Instr} (h : f.instrs[i]? = some ins) :
    ins.isTerminator = true ↔ f.Terminates i := by
  simp only [Terminates, opOf, h, Instr.isTerminator, Option.bind_some]
  split <;> simp_all

theorem isPhi_iff {ins : Instr} (h : f.instrs[i]? = some ins) : ins.isPhi = true ↔ f.IsPhi i := by
  simp only [IsPhi, opOf, h, Instr.isPhi, Option.bind_some]
  split <;> simp_all

/-! ### The shape of the blocks -/

/-- What the walk over the instructions of a block accepts from some point on. -/
theorem checkShape_eq_ok {blk : BlockId × Block} {phis : Bool} {rest : List InstrId}
    (hi : ∀ i ∈ rest, i < f.instrs.size) :
    f.checkShape blk phis rest = .ok () ↔
      ∀ before i after, rest = before ++ i :: after → (f.Terminates i ↔ after = []) ∧
        (f.IsPhi i → phis = true ∧ ∀ j ∈ before, f.IsPhi j) := by
  induction rest generalizing phis with
  | nil => simp [checkShape, pure, Except.pure]
  | cons i rest ih =>
    obtain ⟨hlt, hi⟩ := List.forall_mem_cons.1 hi
    have hget : f.instrs[i]? = some f.instrs[i] := Array.getElem?_eq_getElem hlt
    have hstep : f.checkShape blk phis (i :: rest) = .ok () ↔
        (f.Terminates i ↔ rest = []) ∧ (f.IsPhi i → phis = true) ∧
          f.checkShape blk (phis && f.instrs[i].isPhi) rest = .ok () := by
      rw [checkShape, ← isTerminator_iff hget, ← isPhi_iff hget]
      simp only [Except.bind_eq_ok, liftFault_eq_ok, instr_eq_ok, hget, ite_eq_iff,
        malformed_ne_ok, Option.some.injEq, false_and, exists_false, and_false, false_or]
      simp only [exists_eq_left', ← List.isEmpty_iff]
      grind
    rw [hstep, ih hi]
    have hphi := isPhi_iff hget
    constructor
    · rintro ⟨hterm, hfirst, hrest⟩ before k after he
      cases before with
      | nil =>
        obtain ⟨rfl, rfl⟩ := List.cons.inj he
        exact ⟨hterm, fun hk => ⟨hfirst hk, by simp⟩⟩
      | cons l before =>
        obtain ⟨rfl, htail⟩ := List.cons.inj he
        obtain ⟨hk, hkphi⟩ := hrest before k after htail
        refine ⟨hk, fun hk => ?_⟩
        obtain ⟨hp, hb⟩ := hkphi hk
        rw [Bool.and_eq_true, hphi] at hp
        exact ⟨hp.1, List.forall_mem_cons.2 ⟨hp.2, hb⟩⟩
    · intro h
      obtain ⟨hterm, hfirst⟩ := h [] i rest rfl
      refine ⟨hterm, fun hk => (hfirst hk).1, fun before k after he => ?_⟩
      obtain ⟨hk, hkphi⟩ := h (i :: before) k after (by rw [he, List.cons_append])
      refine ⟨hk, fun hk => ?_⟩
      obtain ⟨hp, hb⟩ := hkphi hk
      rw [Bool.and_eq_true, hphi]
      exact ⟨⟨hp, hb i List.mem_cons_self⟩, fun j hj => hb j (List.mem_cons_of_mem _ hj)⟩

theorem lt_instrs_of_mem (hc : f.Coherent) (h : i ∈ f.instrsOf b) : i < f.instrs.size := by
  obtain ⟨op, hop⟩ := Option.isSome_iff_exists.1 (hc.isSome_opOf (hc.mem_instrsOf.1 h))
  exact lt_size_of_opOf hop

theorem checkBlock_eq_ok (hc : f.Coherent) {blk : Block} (hb : f.blocks[b]? = some blk) :
    f.checkBlock (b, blk) = .ok () ↔ f.Shaped b := by
  have hin := instrs_eq_instrsOf hb
  have hlt : ∀ i ∈ blk.instrs, i < f.instrs.size := fun i hi =>
    lt_instrs_of_mem hc (hin ▸ hi)
  simp only [checkBlock, ite_eq_iff, Except.bind_eq_ok, malformed_ne_ok, false_and, exists_false,
    and_false, false_or, List.isEmpty_iff, checkShape_eq_ok hlt]
  rw [← hin]
  constructor
  · rintro ⟨hne, h⟩
    exact ⟨hne, fun he => (h _ _ _ he).1, fun he hphi => ((h _ _ _ he).2 hphi).2⟩
  · intro h
    exact ⟨h.ne_nil, fun _ _ _ he =>
      ⟨h.terminates_iff he, fun hphi => ⟨trivial, h.phis_first he hphi⟩⟩⟩

/-- The first half of the check accepts the functions whose blocks have the right shape. -/
theorem checkBlocks_eq_ok (hc : f.Coherent) :
    f.checkBlocks = .ok () ↔ ∀ b < f.blocks.size, f.Shaped b := by
  rw [checkBlocks, Except.forM_eq_ok]
  constructor
  · intro h b hb
    have hget := Array.getElem?_eq_getElem hb
    exact (checkBlock_eq_ok hc hget).1 (h _ (mem_layout.2 hget))
  · rintro h ⟨b, blk⟩ hmem
    have hget := mem_layout.1 hmem
    exact (checkBlock_eq_ok hc hget).2 (h b (Array.getElem?_eq_some_iff.1 hget).1)

/-! ### The operands -/

section Operands

variable {d : Dominators} {blk : Block}

/-- A value that is no result needs no check. -/
theorem definingInstr_cases (hc : f.Coherent) (hv : v < f.values.size) :
    (f.definingInstr v = .ok none ∧ ∀ j, f.values[v]? ≠ some (.result j)) ∨
      ∃ j ins, f.definingInstr v = .ok (some j) ∧ f.values[v]? = some (.result j) ∧
        f.instr j = .ok ins ∧ f.blockOf j = ins.block := by
  have hget := Array.getElem?_eq_getElem hv
  cases hx : f.values[v] with
  | result j =>
    rw [hx] at hget
    obtain ⟨ins, hins, -⟩ := hc.value_result hget
    exact .inr ⟨j, ins, definingInstr_eq_ok.2 ⟨_, hget, rfl⟩, hget, instr_eq_ok.2 hins,
      by simp [blockOf, hins]⟩
  | absent | const | arg =>
    rw [hx] at hget
    exact .inl ⟨definingInstr_eq_ok.2 ⟨_, hget, rfl⟩, by simp [hget]⟩

theorem checkIncoming_eq_ok (hc : f.Consistent) (hd : d.Correct f) (hv : v < f.values.size) :
    f.checkIncoming types d (b, blk) i (v, c) = .ok () ↔
      (f.Reachable c → ∀ j, f.values[v]? = some (.result j) →
        ∃ e, f.blockOf j = some e ∧ f.Dominates e c) := by
  rcases definingInstr_cases hc hv with ⟨hdef, hno⟩ | ⟨j, ins, hdef, hval, hins, hblock⟩
  · simp [checkIncoming, Except.bind_eq_ok, liftFault_eq_ok, hdef, hno, pure, Except.pure]
  · simp only [checkIncoming, Except.bind_eq_ok, liftFault_eq_ok, hdef, hins, hval, ite_eq_iff,
      malformed_ne_ok, Except.ok.injEq, Option.some.injEq, exists_eq_left', and_false, exists_false,
      false_or, Except.pure_eq_ok, and_true, hd.reachable_iff, forall_eq', hblock,
      Value.result.injEq, Bool.not_eq_true', Bool.not_eq_false]
    by_cases hr : f.Reachable c
    · simp only [hr, true_and, not_true_eq_false, or_false, true_implies]
      cases ins.block with
      | none => simp
      | some e =>
        simp only [hd.dominates_iff, hr, true_and, Option.some.injEq, exists_eq_left']
        exact ⟨fun h => h.2, fun h => ⟨h.reachable hr, h⟩⟩
    · simp [hr]

theorem checkIncomings_eq_ok {seen : List BlockId} {incoming : List (ValueId × BlockId)} :
    f.checkIncomings types d (b, blk) i seen incoming = .ok () ↔
      ((incoming.map (·.2)).Nodup ∧ ∀ inc ∈ incoming, inc.2 ∉ seen) ∧
        ∀ inc ∈ incoming, inc.2 ∈ blk.preds ∧ f.checkIncoming types d (b, blk) i inc = .ok () := by
  induction incoming generalizing seen with
  | nil => simp [checkIncomings, pure, Except.pure]
  | cons inc incoming ih =>
    simp only [checkIncomings, ite_eq_iff, Except.bind_eq_ok, malformed_ne_ok, false_and,
      exists_false, and_false, false_or, ih, List.map_cons, List.nodup_cons, List.mem_cons, not_or,
      List.mem_map, not_exists, not_and, not_not]
    grind

/-- Incoming blocks are the predecessors, in some order, if they are as many, all different and
all predecessors. -/
theorem perm_preds_iff {l preds : List BlockId} (hn : preds.Nodup) :
    l.Perm preds ↔ l.length = preds.length ∧ l.Nodup ∧ ∀ c ∈ l, c ∈ preds := by
  refine ⟨fun h => ⟨h.length_eq, h.nodup_iff.2 hn, fun c hc => h.subset hc⟩, ?_⟩
  rintro ⟨hlen, hl, hsub⟩
  exact (List.subperm_of_subset hl hsub).perm_of_length_le (Nat.le_of_eq hlen.symm)

theorem checkPhi_eq_ok (hc : f.Consistent) (hd : d.Correct f) (hb : f.blocks[b]? = some blk)
    {incoming : List (ValueId × BlockId)} (hv : ∀ inc ∈ incoming, inc.1 < f.values.size) :
    f.checkPhi types d (b, blk) i incoming = .ok () ↔ f.PhiFormed b incoming := by
  have hpreds := preds_eq_predsOf hb
  have hperm := perm_preds_iff (l := incoming.map (·.2)) (hpreds ▸ hc.edges.nodup_predsOf b)
  simp only [checkPhi, ite_eq_iff, Except.bind_eq_ok, malformed_ne_ok, false_and, exists_false,
    and_false, false_or, checkIncomings_eq_ok, not_not, List.not_mem_nil, not_false_eq_true,
    implies_true, and_true]
  rw [List.length_map, List.forall_mem_map] at hperm
  constructor
  · rintro ⟨hlen, hnodup, hall⟩
    refine ⟨hpreds ▸ hperm.2 ⟨hlen, hnodup, fun inc hinc => (hall inc hinc).1⟩, ?_⟩
    intro v c j hmem hr hval
    exact (checkIncoming_eq_ok hc hd (hv _ hmem)).1 (hall _ hmem).2 hr j hval
  · intro h
    obtain ⟨hlen, hnodup, hall⟩ := hperm.1 (hpreds ▸ h.perm)
    refine ⟨hlen, hnodup, fun inc hinc => ⟨hall inc hinc, ?_⟩⟩
    exact (checkIncoming_eq_ok hc hd (hv _ hinc)).2 fun hr j hval => h.available hinc hr hval

/-- In a list without repetitions, what comes before an element has smaller positions. -/
theorem idxOf_lt_idxOf_iff {before after : List InstrId} (hn : (before ++ i :: after).Nodup) :
    (before ++ i :: after).idxOf j < (before ++ i :: after).idxOf i ↔ j ∈ before := by
  have hi : i ∉ before := fun hi =>
    (List.nodup_append.1 hn).2.2 i hi i List.mem_cons_self rfl
  rw [List.idxOf_append_of_notMem hi, List.idxOf_cons_self]
  by_cases hjb : j ∈ before
  · have := List.idxOf_lt_length_of_mem hjb
    rw [List.idxOf_append_of_mem hjb]
    simp only [hjb, iff_true]
    omega
  · rw [List.idxOf_append_of_notMem hjb]
    simp only [hjb, iff_false]
    omega

theorem checkOperand_eq_ok (hc : f.Consistent) (hd : d.Correct f) (hb : f.blocks[b]? = some blk)
    (hr : f.Reachable b) {before after : List InstrId}
    (hi : f.instrsOf b = before ++ i :: after) (hv : v < f.values.size) :
    f.checkOperand types d (b, blk) i v = .ok () ↔
      ∀ j, f.values[v]? = some (.result j) → ∃ e, f.blockOf j = some e ∧
        (e = b ∧ j ∈ before ∨ e ≠ b ∧ f.Dominates e b) := by
  rcases definingInstr_cases hc hv with ⟨hdef, hno⟩ | ⟨j, ins, hdef, hval, hins, hblock⟩
  · simp [checkOperand, Except.bind_eq_ok, liftFault_eq_ok, hdef, hno, pure, Except.pure]
  · simp only [checkOperand, Except.bind_eq_ok, liftFault_eq_ok, hdef, hins, hval,
      Except.ok.injEq, Option.some.injEq, exists_eq_left', forall_eq', hblock, Value.result.injEq]
    cases hblk : ins.block with
    | none => simp [Except.bind_eq_ok, malformed_ne_ok]
    | some e =>
      have hbefore : ¬blk.instrs.idxOf i ≤ blk.instrs.idxOf j ↔ j ∈ before := by
        rw [← instrs_eq_instrsOf hb, hi, Nat.not_le,
          idxOf_lt_idxOf_iff (hi ▸ hc.nodup_instrsOf b)]
      simp only [ite_eq_iff, Except.bind_eq_ok, malformed_ne_ok, and_false, exists_false, false_or,
        Except.pure_eq_ok, and_true, Bool.not_eq_true', Bool.not_eq_false, hd.dominates_iff, hr,
        true_and, Option.some.injEq, exists_eq_left']
      by_cases he : e = b
      · simp [he, hbefore]
      · simp only [he, false_and, not_false_eq_true, true_and, false_or]
        exact ⟨fun h => ⟨he, h.2⟩, fun h => ⟨h.2.reachable hr, h.2⟩⟩

theorem checkInstr_phi (hc : f.Consistent) (hd : d.Correct f) (ho : f.OperandsExist)
    (hb : f.blocks[b]? = some blk) (hi : i ∈ f.instrsOf b) {t : TypeId}
    {incoming : List (ValueId × BlockId)} (hop : f.opOf i = some (.phi t incoming)) :
    f.checkInstr types d (b, blk) i = .ok () ↔ f.PhiFormed b incoming := by
  obtain ⟨ins, hins, hinsop⟩ := Option.bind_eq_some_iff.1 hop
  have hargs := ho i (mem_inserted.2 ⟨b, hi⟩) _ hop
  simp only [checkInstr, Except.bind_eq_ok, liftFault_eq_ok, instr_eq_ok, hins,
    Option.some.injEq, exists_eq_left', hinsop]
  exact checkPhi_eq_ok hc hd hb (by simpa [Operation.args] using hargs)

theorem checkInstr_of_not_phi (hc : f.Consistent) (hd : d.Correct f) (ho : f.OperandsExist)
    (hb : f.blocks[b]? = some blk) {before after : List InstrId}
    (hi : f.instrsOf b = before ++ i :: after) {op : Operation} (hop : f.opOf i = some op)
    (hphi : op.isPhi = false) :
    f.checkInstr types d (b, blk) i = .ok () ↔
      (f.Reachable b → f.UsesDefined b before op.args) := by
  obtain ⟨ins, hins, hinsop⟩ := Option.bind_eq_some_iff.1 hop
  have hargs := ho i (mem_inserted.2 ⟨b, by simp [hi]⟩) op hop
  have hstep : f.checkInstr types d (b, blk) i = .ok () ↔
      (f.Reachable b → ∀ v ∈ op.args, f.checkOperand types d (b, blk) i v = .ok ()) := by
    simp only [checkInstr, Except.bind_eq_ok, liftFault_eq_ok, instr_eq_ok, hins,
      Option.some.injEq, exists_eq_left', Instr.args, hinsop]
    by_cases hr : f.Reachable b
    · have hdr : d.reachable b = true := hd.reachable_iff.2 hr
      cases op with
      | phi => cases hphi
      | _ =>
        simp only [hdr, hr, if_true, Except.bind_eq_ok, liftFault_eq_ok, Except.ok.injEq,
          exists_eq_left', Except.forM_eq_ok, true_implies]
    · have hdr : d.reachable b = false := by simpa [hr] using hd.reachable_iff (b := b)
      cases op with
      | phi => cases hphi
      | _ => simp only [hdr, hr, Bool.false_eq_true, if_false, Except.pure_eq_ok, false_implies]
  rw [hstep]
  refine imp_congr_right fun hr => forall_congr' fun v => imp_congr_right fun hv => ?_
  exact checkOperand_eq_ok hc hd hb hr hi (hargs v hv)

/-- The second half of the check accepts the functions whose operands are defined where they are
used. -/
theorem checkUses_eq_ok (hc : f.Consistent) (ho : f.OperandsExist) :
    f.checkUses types = .ok () ↔
      (∀ b, ∀ i ∈ f.instrsOf b, ∀ t incoming, f.opOf i = some (.phi t incoming) →
        f.PhiFormed b incoming) ∧
      ∀ b, f.Reachable b → ∀ before i after op, f.instrsOf b = before ++ i :: after →
        f.opOf i = some op → op.isPhi = false → f.UsesDefined b before op.args := by
  obtain ⟨d, hdom, hd⟩ := exists_dominators hc
  simp only [checkUses, Except.bind_eq_ok, liftFault_eq_ok, hdom, Except.ok.injEq,
    exists_eq_left', Except.forM_eq_ok]
  constructor
  · intro h
    have hall {b : BlockId} {i : InstrId} (hi : i ∈ f.instrsOf b) :
        ∃ blk, f.blocks[b]? = some blk ∧ f.checkInstr types d (b, blk) i = .ok () := by
      have hget := Array.getElem?_eq_getElem (lt_size_of_mem_instrsOf hi)
      exact ⟨_, hget, h _ (mem_layout.2 hget) i (instrs_eq_instrsOf hget ▸ hi)⟩
    refine ⟨fun b i hi t incoming hop => ?_, fun b hr before i after op hi hop hphi => ?_⟩
    · obtain ⟨blk, hget, hok⟩ := hall hi
      exact (checkInstr_phi hc hd ho hget hi hop).1 hok
    · obtain ⟨blk, hget, hok⟩ := hall (b := b) (i := i) (by simp [hi])
      exact (checkInstr_of_not_phi hc hd ho hget hi hop hphi).1 hok hr
  · rintro ⟨hphis, huses⟩ ⟨b, blk⟩ hblk i hi
    have hget := mem_layout.1 hblk
    have hi : i ∈ f.instrsOf b := instrs_eq_instrsOf hget ▸ hi
    obtain ⟨op, hop⟩ := Option.isSome_iff_exists.1 (hc.isSome_opOf (hc.mem_instrsOf.1 hi))
    cases hphi : op.isPhi with
    | true =>
      cases op <;> cases hphi
      exact (checkInstr_phi hc hd ho hget hi hop).2 (hphis b i hi _ _ hop)
    | false =>
      obtain ⟨before, after, hsplit⟩ := List.append_of_mem hi
      exact (checkInstr_of_not_phi hc hd ho hget hsplit hop hphi).2 fun hr =>
        huses b hr before i after op hsplit hop hphi

end Operands

/-- A function with a body that the check accepts is well formed. -/
theorem wellFormed_of_check (hc : f.Consistent) (ho : f.OperandsExist)
    (h : f.check types = .ok ()) (hbody : f.isDeclaration = false) : f.WellFormed := by
  simp only [check, hbody, Bool.false_eq_true, if_false, Except.bind_eq_ok,
    checkBlocks_eq_ok hc.coherent, checkUses_eq_ok hc ho] at h
  obtain ⟨_, hshape, hphis, huses⟩ := h
  exact ⟨hshape, hphis, huses⟩

/-- For every function that is built step by step and whose operands exist, the check accepts it
just if it is a declaration or well formed. -/
theorem check_eq_ok_iff (h : f.Built) (ho : f.OperandsExist) (types : TypeTable) :
    f.check types = .ok () ↔ f.isDeclaration = true ∨ f.WellFormed := by
  have hc := h.consistent
  constructor
  · intro hcheck
    cases hdecl : f.isDeclaration with
    | true => exact .inl rfl
    | false => exact .inr (wellFormed_of_check hc ho hcheck hdecl)
  · intro hwf
    by_cases hdecl : f.isDeclaration = true
    · rw [check, if_pos hdecl, Except.pure_eq_ok]
    · have hwf := hwf.resolve_left hdecl
      rw [check, if_neg hdecl, Except.bind_eq_ok]
      exact ⟨(), (checkBlocks_eq_ok hc).2 hwf.shaped,
        (checkUses_eq_ok hc ho).2 ⟨hwf.phis, hwf.uses⟩⟩

/-- The sample function has a phi with a value from a block that cannot be reached. -/
theorem check_eq_ok_iff_sample :
    sample.Built ∧ sample.OperandsExist ∧
      (sample.check sampleTypes = .ok () ↔ sample.isDeclaration = true ∨ sample.WellFormed) :=
  ⟨built_sample, by decide +kernel, check_eq_ok_iff built_sample (by decide +kernel) sampleTypes⟩

end Codegen.Func
