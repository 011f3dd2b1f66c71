import Codegen.Proofs.Acceptance
import Codegen.Proofs.Complaints
import Codegen.Proofs.Leaves

/-!
# The values that come into a phi

The check of a function asks whether a phi has as many values as its block has predecessors, whether
they come in from different blocks, and whether these are predecessors. Lowering counts the values
that come in from each predecessor. No predecessor is recorded twice, so both accept the same phis:
those whose values can be put into the order of the predecessors, one for each.

## Main definitions

* `Func.OneEach`: the values of a phi come in from the predecessors of its block, one from each.
* `Flaw.concernsEdges`: the flaws of a phi that does not fit the predecessors of its block.

## Main results

* `Func.Drafted.nodup_predsOf`: no predecessor is recorded twice, whatever the steps were.
* `Func.checkPhi_eq_ok_iff`: what the check accepts.
* `X86.incomings_eq_ok_iff`: what lowering accepts, and the order that it gives.
* `X86.phi_checks_agree`: both accept the same, and what is lowered carries every value once.
-/

namespace Codegen

theorem liftFault_ne_error {α : Type} {x : Except Fault α} {e : Error} :
    (liftM x : Except Stop α) ≠ .error (.error e) := by
  cases x <;> simp [liftM, monadLift, MonadLift.monadLift]

namespace Func

variable {f : Func} {types : TypeTable} {b : BlockId} {i : InstrId} {blk : Block} {d : Dominators}
  {incoming : List (ValueId × BlockId)}

/-! ### Predecessors -/

/-- No predecessor of a block is recorded twice. -/
def OncePreds (f : Func) : Prop :=
  ∀ (b : BlockId) (blk : Block), f.blocks[b]? = some blk → blk.preds.Nodup

theorem OncePreds.updateBlock (h : f.OncePreds) {g : Block → Block}
    (hg : ∀ blk : Block, blk.preds.Nodup → (g blk).preds.Nodup) :
    (f.updateBlock b g).OncePreds := by
  intro c blk hc
  rw [getElem?_blocks_updateBlock] at hc
  split at hc
  · obtain ⟨old, hold, rfl⟩ := Option.map_eq_some_iff.1 hc
    exact hg old (h b old hold)
  · exact h c blk hc

theorem OncePreds.attach (h : f.OncePreds) : (f.attach b i).OncePreds := by
  have hinstr : OncePreds (f.updateInstr i ({ · with block := some b })) := fun c blk hc =>
    h c blk (by rwa [blocks_updateInstr] at hc)
  exact hinstr.updateBlock fun _ hblk => hblk

theorem OncePreds.link (h : f.OncePreds) (target : BlockId) :
    (EStateM.after (link b target) f).OncePreds := by
  refine EStateM.after_bind OncePreds (h.updateBlock fun _ hblk => hblk) fun _ g _ hg => ?_
  refine EStateM.after_bind OncePreds hg fun _ g' hget hg' => ?_
  obtain ⟨rfl, rfl⟩ := EStateM.get_eq_ok.1 hget
  split
  · exact hg'.updateBlock fun _ hblk => nodup_addOnce hblk
  · exact hg'

/-- An insertion records no predecessor twice, even if it stops. -/
theorem OncePreds.insert (h : f.OncePreds) : (EStateM.after (insert b i) f).OncePreds := by
  refine EStateM.after_bind OncePreds h fun _ g hget _ => ?_
  obtain ⟨rfl, rfl⟩ := EStateM.get_eq_ok.1 hget
  split
  · exact h
  · exact h
  · split
    · exact h
    · split
      · exact h
      · refine EStateM.after_bind OncePreds h.attach fun _ g _ hg => ?_
        exact EStateM.after_forM OncePreds (fun target _ ht => ht.link target) hg

theorem Drafted.oncePreds (h : f.Drafted) : f.OncePreds := by
  induction h with
  | new h =>
    obtain ⟨hblocks, -⟩ := new_blocks h
    simp [OncePreds, hblocks]
  | @addBlock f name _ ih =>
    intro c blk hc
    rw [Func.addBlock, Array.getElem?_push] at hc
    split at hc
    · cases hc
      exact List.nodup_nil
    · exact ih c blk hc
  | addConst _ _ _ ih => exact ih
  | addInstr _ ih => exact ih
  | setOperation _ h ih =>
    obtain ⟨-, rfl⟩ := setOperation_eq_ok h
    exact fun c blk hc => ih c blk (by rwa [blocks_updateInstr] at hc)
  | insert b i _ ih => exact ih.insert

/-- No predecessor is recorded twice, in whatever order the function was put together. -/
theorem Drafted.nodup_predsOf (h : f.Drafted) (b : BlockId) : (f.predsOf b).Nodup := by
  cases hb : f.blocks[b]? with
  | none => simp [predsOf, hb]
  | some blk => exact preds_eq_predsOf hb ▸ h.oncePreds b blk hb

/-! ### The check -/

/-- The values of a phi come in from the predecessors of its block, one from each: they are as many,
they come in from different blocks, and these are predecessors. -/
structure OneEach (preds : List BlockId) (incoming : List (ValueId × BlockId)) : Prop where
  length_eq : incoming.length = preds.length
  nodup : (incoming.map (·.2)).Nodup
  mem : ∀ inc ∈ incoming, inc.2 ∈ preds

theorem oneEach_iff_perm {preds : List BlockId} (hn : preds.Nodup) :
    OneEach preds incoming ↔ (incoming.map (·.2)).Perm preds := by
  rw [perm_preds_iff hn, List.length_map, List.forall_mem_map]
  exact ⟨fun h => ⟨h.length_eq, h.nodup, h.mem⟩, fun h => ⟨h.1, h.2.1, h.2.2⟩⟩

/-- A phi passes the check if one value comes in from each predecessor and all are available there.
-/
theorem checkPhi_eq_ok_iff : f.checkPhi types d (b, blk) i incoming = .ok () ↔
    OneEach blk.preds incoming ∧
      ∀ inc ∈ incoming, f.checkIncoming types d (b, blk) i inc = .ok () := by
  simp only [checkPhi, ite_eq_iff, Except.bind_eq_ok, malformed_ne_ok, false_and, exists_false,
    and_false, false_or, checkIncomings_eq_ok, not_not, List.not_mem_nil, not_false_eq_true,
    implies_true, and_true]
  constructor
  · rintro ⟨hlength, hnodup, hall⟩
    exact ⟨⟨hlength, hnodup, fun inc hinc => (hall inc hinc).1⟩, fun inc hinc => (hall inc hinc).2⟩
  · rintro ⟨heach, havail⟩
    exact ⟨heach.length_eq, heach.nodup, fun inc hinc => ⟨heach.mem inc hinc, havail inc hinc⟩⟩

end Func

/-- Whether a flaw is one of a phi that does not fit the predecessors of its block: in number, by a
block that comes twice, or by a block that is no predecessor. -/
def Flaw.concernsEdges : Flaw → Bool
  | incomingCount _ _ | incomingTwice _ | notPredecessor _ => true
  | _ => false

namespace Func

variable {f : Func} {types : TypeTable} {b c : BlockId} {i : InstrId} {v : ValueId} {blk : Block}
  {d : Dominators} {incoming : List (ValueId × BlockId)} {e : Stop}

/-- The error that reports a flaw of an instruction. -/
def flawOf (f : Func) (b : BlockId × Block) (i : InstrId) (flaw : Flaw) : Stop :=
  .ofCause (.malformed f.name (b.2.label b.1) (some i) flaw)

/-- A value that is not available is no flaw of this kind. -/
theorem checkIncoming_ne_flawOf {flaw : Flaw} (hflaw : flaw.concernsEdges = true) :
    f.checkIncoming types d (b, blk) i (v, c) ≠ .error (f.flawOf (b, blk) i flaw) := by
  intro h
  rw [checkIncoming] at h
  obtain ⟨def?, -, h⟩ := (Except.bind_eq_error.1 h).resolve_left liftFault_ne_error
  cases def? with
  | none => exact Except.pure_ne_error h
  | some j =>
    simp only at h
    split at h
    · obtain ⟨ins, -, h⟩ := (Except.bind_eq_error.1 h).resolve_left liftFault_ne_error
      rcases ite_eq_iff.1 h with ⟨-, h⟩ | ⟨-, h⟩
      · obtain ⟨vtext, -, h⟩ := (Except.bind_eq_error.1 h).resolve_left liftFault_ne_error
        obtain ⟨ctext, -, h⟩ := (Except.bind_eq_error.1 h).resolve_left liftFault_ne_error
        cases h
        cases hflaw
      · exact Except.pure_ne_error h
    · exact Except.pure_ne_error h

/-- What is reported of a phi that fits is reported of one of its values. -/
theorem exists_of_checkIncomings_eq_error {seen : List BlockId}
    (hnodup : (incoming.map (·.2)).Nodup) (hseen : ∀ inc ∈ incoming, inc.2 ∉ seen)
    (hmem : ∀ inc ∈ incoming, inc.2 ∈ blk.preds)
    (h : f.checkIncomings types d (b, blk) i seen incoming = .error e) :
    ∃ inc ∈ incoming, f.checkIncoming types d (b, blk) i inc = .error e := by
  induction incoming generalizing seen with
  | nil => exact absurd h Except.pure_ne_error
  | cons inc incoming ih =>
    obtain ⟨hnot, hnodup⟩ := List.nodup_cons.1 hnodup
    obtain ⟨hfirst, hseen⟩ := List.forall_mem_cons.1 hseen
    obtain ⟨hpred, hmem⟩ := List.forall_mem_cons.1 hmem
    rw [checkIncomings, if_neg hfirst, if_neg (not_not.2 hpred)] at h
    rcases Except.bind_eq_error.1 h with hinc | ⟨_, -, hrest⟩
    · exact ⟨inc, List.mem_cons_self, hinc⟩
    · have hseen' : ∀ inc' ∈ incoming, inc'.2 ∉ inc.2 :: seen := by
        intro inc' hinc' hmem'
        rcases List.mem_cons.1 hmem' with heq | hold
        · exact hnot (List.mem_map.2 ⟨inc', hinc', heq⟩)
        · exact hseen inc' hinc' hold
      obtain ⟨inc', hinc', herror⟩ := ih hnodup hseen' hmem hrest
      exact ⟨inc', List.mem_cons_of_mem _ hinc', herror⟩

/-- If all values are available, nothing but such a flaw is reported. -/
theorem checkIncomings_cases {seen : List BlockId}
    (hlt : ∀ inc ∈ incoming, inc.2 < f.blocks.size)
    (havail : ∀ inc ∈ incoming, f.checkIncoming types d (b, blk) i inc = .ok ()) :
    f.checkIncomings types d (b, blk) i seen incoming = .ok () ∨
      ∃ flaw : Flaw, flaw.concernsEdges = true ∧
        f.checkIncomings types d (b, blk) i seen incoming = .error (f.flawOf (b, blk) i flaw) := by
  induction incoming generalizing seen with
  | nil => exact .inl rfl
  | cons inc incoming ih =>
    obtain ⟨hltinc, hlt⟩ := List.forall_mem_cons.1 hlt
    obtain ⟨hinc, havail⟩ := List.forall_mem_cons.1 havail
    obtain ⟨text, htext⟩ := exists_blockName hltinc
    have hname : (f.blockName inc.2 : Except Stop String) = .ok text := liftFault_eq_ok.2 htext
    rw [checkIncomings]
    split
    · exact .inr ⟨.incomingTwice text, rfl, by rw [Except.bind_eq_of_ok hname]; rfl⟩
    · simp only
      split
      · exact .inr ⟨.notPredecessor text, rfl, by rw [Except.bind_eq_of_ok hname]; rfl⟩
      · rw [Except.bind_eq_of_ok hinc]
        exact ih hlt havail

/-- Of a phi that fits, no such flaw is reported. -/
theorem OneEach.checkPhi_ne_flawOf (h : OneEach blk.preds incoming) {flaw : Flaw}
    (hflaw : flaw.concernsEdges = true) :
    f.checkPhi types d (b, blk) i incoming ≠ .error (f.flawOf (b, blk) i flaw) := by
  intro herror
  rw [checkPhi, if_neg (not_not.2 h.length_eq)] at herror
  obtain ⟨⟨v, c⟩, -, hinc⟩ := exists_of_checkIncomings_eq_error h.nodup
    (fun _ _ => List.not_mem_nil) h.mem herror
  exact checkIncoming_ne_flawOf hflaw hinc

/-- Of a phi that does not fit, such a flaw is reported, unless a value is not available. -/
theorem exists_flawOf_of_not_oneEach (hlt : ∀ inc ∈ incoming, inc.2 < f.blocks.size)
    (havail : ∀ inc ∈ incoming, f.checkIncoming types d (b, blk) i inc = .ok ())
    (h : ¬OneEach blk.preds incoming) : ∃ flaw : Flaw, flaw.concernsEdges = true ∧
      f.checkPhi types d (b, blk) i incoming = .error (f.flawOf (b, blk) i flaw) := by
  have hbad : f.checkPhi types d (b, blk) i incoming ≠ .ok () := fun hok =>
    h (checkPhi_eq_ok_iff.1 hok).1
  rw [checkPhi] at hbad ⊢
  split
  · exact ⟨_, rfl, rfl⟩
  · next hlength =>
    rw [if_neg hlength] at hbad
    exact (checkIncomings_cases hlt havail).resolve_left hbad

end Func

/-! ### Lowering -/

namespace Builder

variable {ω : Type} {conv : Converter ω} {src : Source}

/-- What every conversion that ends says about its instruction is true of the instructions that were
converted. -/
theorem lasting_of_run {R : InstrId → Prop}
    (hR : ∀ {visit : InstrId → Build ω NodeRef} {c : Context} {i : InstrId}
      {result : Conversion.Result} {s t : Builder ω},
      runConversion src visit (conv src c i) s = .ok result t → R i) :
    Lasting conv src fun s => ∀ i result, s.memo[i]? = some (.converted result) → R i := by
  refine ⟨fun _ h => h, fun _ h => h, fun {s} i h j result hj => ?_,
    fun {s t u visit i result} _ hrun hu j result' hj => ?_⟩
  · by_cases hij : i = j
    · subst hij
      rw [remembered, Array.getElem?_setIfInBounds, if_pos rfl] at hj
      split at hj <;> cases hj
    · exact h j result (memo_remembered_of_ne hij ▸ hj)
  · by_cases hij : i = j
    · exact hij ▸ hR hrun
    · exact hu j result' (memo_remembered_of_ne hij ▸ hj)

theorem of_build {R : InstrId → Prop}
    (hR : ∀ {visit : InstrId → Build ω NodeRef} {c : Context} {i : InstrId}
      {result : Conversion.Result} {s t : Builder ω},
      runConversion src visit (conv src c i) s = .ok result t → R i)
    {s s' : Builder ω} {g : Graph ω} (h : build conv src s = .ok g s') {i : InstrId}
    {result : Conversion.Result} (hi : s'.memo[i]? = some (.converted result)) : R i := by
  obtain ⟨s₁, t, hstart, hblocks, rfl, rfl⟩ := build_eq_ok.1 h
  obtain ⟨-, -, hmemo⟩ := start_eq_ok hstart
  have hnone : ∀ i result, s₁.memo[i]? = some (.converted result) → R i := fun i result hi => by
    simp [hmemo, Array.getElem?_replicate] at hi
  have hall := maintains_buildBlocks (lasting_of_run hR) src.func.layout s₁ hnone
  rw [EStateM.after_eq_of_ok hblocks] at hall
  exact hall i result hi

end Builder

namespace X86

variable {src : Source} {b p : BlockId} {i : InstrId} {ins : Codegen.Instr} {blk : Block}
  {t : TypeId} {incoming incs : List (ValueId × BlockId)} {inc : ValueId × BlockId}

theorem incomingFrom_eq_ok_iff :
    incomingFrom src i incoming p = .ok inc ↔ incoming.filter (·.2 == p) = [inc] := by
  constructor
  · intro h
    unfold incomingFrom at h
    split at h
    · next hfilter => rw [hfilter, Except.pure_eq_ok.1 h]
    · simp [Except.bind_eq_ok, Except.throw_ne_ok] at h
  · intro h
    simp [incomingFrom, h, pure, Except.pure]

theorem mem_of_filter_eq_singleton (h : incoming.filter (·.2 == p) = [inc]) :
    inc ∈ incoming ∧ inc.2 = p := by
  have hmem : inc ∈ incoming.filter (·.2 == p) := h ▸ List.mem_singleton_self inc
  simpa using hmem

/-- In a list whose blocks are all different, an element is the only one with its block. -/
theorem filter_eq_singleton (hnodup : (incs.map (·.2)).Nodup) (hinc : inc ∈ incs) :
    incs.filter (·.2 == inc.2) = [inc] := by
  have hmem : inc ∈ incs.filter (·.2 == inc.2) := List.mem_filter.2 ⟨hinc, beq_self_eq_true _⟩
  have hcount : (incs.filter (·.2 == inc.2)).length = 1 := by
    rw [← List.countP_eq_length_filter]
    have hone := List.count_eq_one_of_mem hnodup (List.mem_map_of_mem (f := (·.2)) hinc)
    rwa [List.count, List.countP_map] at hone
  obtain ⟨inc', hinc'⟩ := List.length_eq_one_iff.1 hcount
  rw [hinc', List.mem_singleton] at hmem
  rw [hinc', hmem]

/-- The values that come into a phi are put into the order of the predecessors, and none is left
out. -/
theorem incomings_eq_ok_iff (hins : src.func.instrs[i]? = some ins) (hb : ins.block = some b)
    (hblk : src.func.blocks[b]? = some blk) (hn : blk.preds.Nodup) :
    incomings src i incoming = .ok incs ↔ incs.map (·.2) = blk.preds ∧ incs.Perm incoming := by
  have hiff : incomings src i incoming = .ok incs ↔ incoming.length = blk.preds.length ∧
      List.Forall₂ (fun p inc => incoming.filter (·.2 == p) = [inc]) blk.preds incs := by
    simp only [incomings, Except.bind_eq_ok, liftFault_eq_ok, Func.instr_eq_ok, hins, hb,
      Func.block_eq_ok, hblk, Option.some.injEq, exists_eq_left', Except.pure_eq_ok, ite_eq_iff,
      Except.throw_ne_ok, false_and, exists_false, and_false, false_or, not_not, Except.mapM_eq_ok,
      incomingFrom_eq_ok_iff]
  rw [hiff]
  constructor
  · rintro ⟨hlength, hfrom⟩
    have hblocks : incs.map (·.2) = blk.preds := by
      rw [← List.forall₂_eq_eq_eq, List.forall₂_map_left_iff]
      exact (hfrom.imp fun p inc hinc => (mem_of_filter_eq_singleton hinc).2).flip
    refine ⟨hblocks, ?_⟩
    have hnodup : incs.Nodup := List.Nodup.of_map _ (hblocks ▸ hn)
    have hsub : incs ⊆ incoming := fun inc hinc => by
      obtain ⟨p, -, hp⟩ := exists_mem_of_forall₂ hfrom.flip hinc
      exact (mem_of_filter_eq_singleton hp).1
    refine (List.subperm_of_subset hnodup hsub).perm_of_length_le (Nat.le_of_eq ?_)
    rw [hlength, ← hblocks, List.length_map]
  · rintro ⟨hblocks, hperm⟩
    refine ⟨by rw [← hperm.length_eq, ← hblocks, List.length_map], ?_⟩
    rw [← hblocks, List.forall₂_map_left_iff, List.forall₂_same]
    intro inc hinc
    have hone := filter_eq_singleton (hblocks ▸ hn) hinc
    exact List.perm_singleton.1 (hone ▸ (hperm.filter _).symm)

/-- Lowering accepts the phis that get one value from each predecessor. -/
theorem exists_incomings_iff (hins : src.func.instrs[i]? = some ins) (hb : ins.block = some b)
    (hblk : src.func.blocks[b]? = some blk) (hn : blk.preds.Nodup) :
    (∃ incs, incomings src i incoming = .ok incs) ↔ Func.OneEach blk.preds incoming := by
  simp only [incomings_eq_ok_iff hins hb hblk hn]
  rw [Func.oneEach_iff_perm hn]
  constructor
  · rintro ⟨incs, hblocks, hperm⟩
    exact hblocks ▸ (hperm.map _).symm
  · intro hperm
    have hsame : List.Forall₂ (fun inc p => inc.2 = p) incoming (incoming.map (·.2)) :=
      List.forall₂_map_right_iff.2 (List.forall₂_same.2 fun _ _ => rfl)
    obtain ⟨incs, hincs, hblocks⟩ : (Relation.Comp List.Perm (List.Forall₂ fun inc p => inc.2 = p))
        incoming blk.preds := by
      rw [← List.forall₂_comp_perm_eq_perm_comp_forall₂]
      exact ⟨_, hsame, hperm⟩
    refine ⟨incs, ?_, hincs.symm⟩
    rwa [← List.forall₂_eq_eq_eq, List.forall₂_map_left_iff]

/-- The operands for a value that comes in: the value, and the label of its block. -/
def Brings (src : Source) (inc : ValueId × BlockId) (os : List Operand) : Prop :=
  ∃ o, Stands src inc.1 o ∧ os = [o, .label (inc.2 + 1)]

/-- The nodes for a value that comes in: a leaf for the value, and the label of its block. -/
def BringsNode (src : Source) (g : Graph Opcode) (b : BlockId) (inc : ValueId × BlockId)
    (args : List NodeRef) : Prop :=
  ∃ r m, Leaf src g b inc.1 r ∧ g.Has m b (.block (inc.2 + 1) inc.2) [] ∧ args = [r, some m]

theorem find?_of_incomingFrom (h : incomingFrom src i incoming p = .ok inc) {v : ValueId}
    (hfind : incoming.find? (·.2 == p) = some (v, p)) : inc = (v, p) :=
  Option.some.inj ((incomingFrom_eq_ok h).2.2.symm.trans hfind)

/-- A phi that is selected carries its values in the order of the predecessors. -/
theorem exists_phi_of_compile (hcon : src.func.Coherent) (hins : src.func.instrs[i]? = some ins)
    (hb : ins.block = some b) (hop : ins.op = some (.phi t incoming)) {s s' : Compiler}
    {code : Lowered} (h : Compiler.compile src s = .ok code s') :
    ∃ incs phi operands, incomings src i incoming = .ok incs ∧ phi ∈ code.instrs.toList ∧
      phi.Is .phi (.reg (src.func.regOf ins.result) :: operands.flatten) ∧
      List.Forall₂ (Brings src) incs operands := by
  have hi : i ∈ src.func.instrsOf b := hcon.mem_instrsOf.2 (by simp [Func.blockOf, hins, hb])
  have hlt := Func.lt_size_of_mem_instrsOf hi
  obtain ⟨incs, hincs⟩ : ∃ incs, incomings src i incoming = .ok incs := by
    obtain ⟨s₁, ranges, _, hstart, hl, -, -⟩ := compile_eq_ok.1 h
    have hready := (start_eq_ok hcon hstart).1
    obtain ⟨is, c', hsel⟩ := exists_select_of_lowerBlocks hcon hready (fun _ _ => Func.mem_layout.1)
      hl b (Func.mem_map_fst_layout.2 hlt) i hi
    have hsel := (rule_of_select (by simp [Func.opOf, hins, hop]) hsel).1 t incoming rfl
    unfold selectPhi at hsel
    split at hsel
    · simp [EStateM.bind_eq_ok, EStateM.throw_ne_ok] at hsel
    · simp only [EStateM.bind_eq_ok, EStateM.get_eq_ok, liftStop_eq_ok, phiOperands,
        Except.bind_eq_ok] at hsel
      obtain ⟨_, _, -, _, _, -, _, _, ⟨⟨incs, hincs, -⟩, -⟩, -⟩ := hsel
      exact ⟨incs, hincs⟩
  obtain ⟨range, -, codes, rest, hcodes, hbuffer⟩ := (laid_of_compile hcon h).block b hlt
  obtain ⟨is, his, ins', op, hins', hop', hsel⟩ := exists_mem_of_forall₂ hcodes hi
  cases hins.symm.trans hins'
  cases hop.symm.trans hop'
  cases hsel with
  | @phi _ _ phi operands hphi _ hin =>
    refine ⟨incs, phi, operands, hincs, ?_, hphi, ?_⟩
    · have hmem : phi ∈ codes.flatten ++ rest :=
        List.mem_append_left _ (List.mem_flatten.2 ⟨[phi], his, List.mem_singleton_self phi⟩)
      exact List.mem_of_mem_drop (hbuffer ▸ hmem)
    · refine (forall₂_trans (incomings_eq_ok hins hb hincs).flip hin).imp ?_
      rintro inc os ⟨p, hinc, -, v, o, hfind, ho, rfl⟩
      rw [find?_of_incomingFrom hinc hfind]
      exact ⟨o, ho, rfl⟩

/-- A phi that is converted carries its values in the order of the predecessors. -/
theorem exists_phi_of_build (hcon : src.func.Coherent) (hins : src.func.instrs[i]? = some ins)
    (hb : ins.block = some b) (hop : ins.op = some (.phi t incoming)) {s s' : Builder Opcode}
    {g : Graph Opcode} (h : Builder.build converter src s = .ok g s') :
    ∃ incs n args, incomings src i incoming = .ok incs ∧
      s'.memo[i]? = some (.converted (.chained n)) ∧ g.Has n b (.inst .phi) args.flatten ∧
      List.Forall₂ (BringsNode src g b) incs args := by
  obtain ⟨op, result, hop', hm, hconv⟩ := (finished_with_graph hcon h).converted hcon
    (show src.func.blockOf i = some b by simp [Func.blockOf, hins, hb])
  have hop : src.func.opOf i = some (.phi t incoming) := by simp [Func.opOf, hins, hop]
  cases hop.symm.trans hop'
  obtain ⟨incs, hincs⟩ : ∃ incs, incomings src i incoming = .ok incs := by
    refine Builder.of_build (R := fun i => src.func.opOf i = some (.phi t incoming) →
      ∃ incs, incomings src i incoming = .ok incs) (fun {visit c i result s t'} hrun hop => ?_) h hm
      hop
    obtain ⟨ins, hins, hinsop⟩ := Option.bind_eq_some_iff.1 hop
    simp only [converter, Builder.run_bind, Builder.run_lift, liftFault_eq_ok, Func.instr_eq_ok,
      hins, Option.some.injEq] at hrun
    obtain ⟨_, _, ⟨rfl, rfl⟩, hrun⟩ := hrun
    rw [hinsop] at hrun
    obtain ⟨n, hrun, -⟩ := Builder.run_bind_pure.1 hrun
    simp only [convertPhi, Builder.run_ite, Builder.run_bind, Builder.run_lift, Builder.run_throw,
      false_and, and_false, exists_false, false_or] at hrun
    obtain ⟨-, incs, _, ⟨hincs, -⟩, -⟩ := hrun
    exact ⟨incs, hincs⟩
  cases hconv with
  | @phi _ _ args n hargs hn =>
    refine ⟨incs, n, args, hincs, hm, hn, ?_⟩
    refine (forall₂_trans (incomings_eq_ok hins hb hincs).flip hargs).imp ?_
    rintro inc a ⟨p, hinc, hincoming⟩
    cases hincoming with
    | @mk v r m hfind hr hm =>
      rw [find?_of_incomingFrom hinc hfind]
      exact ⟨r, m, hr, hm, rfl⟩

/-- The two checks of a phi agree. Lowering accepts a phi if the check finds as many values as there
are predecessors, from different blocks that are predecessors, and only then. It puts the values
into the order of the predecessors. Both the instruction and the node that the phi is lowered to
carry them in this order, each with the label of its block. -/
theorem phi_checks_agree (hf : src.func.Drafted) (hins : src.func.instrs[i]? = some ins)
    (hb : ins.block = some b) (hblk : src.func.blocks[b]? = some blk)
    (hop : ins.op = some (.phi t incoming))
    (hlt : ∀ inc ∈ incoming, inc.2 < src.func.blocks.size) :
    ((∃ incs, incomings src i incoming = .ok incs) ↔ incoming.length = blk.preds.length ∧
      (incoming.map (·.2)).Nodup ∧ ∀ inc ∈ incoming, inc.2 ∈ blk.preds) ∧
    (∀ d, src.func.checkPhi src.types d (b, blk) i incoming = .ok () ↔
      (∃ incs, incomings src i incoming = .ok incs) ∧
        ∀ inc ∈ incoming, src.func.checkIncoming src.types d (b, blk) i inc = .ok ()) ∧
    (∀ d (flaw : Flaw), flaw.concernsEdges = true →
      src.func.checkPhi src.types d (b, blk) i incoming =
        .error (src.func.flawOf (b, blk) i flaw) → ¬∃ incs, incomings src i incoming = .ok incs) ∧
    (∀ d, (¬∃ incs, incomings src i incoming = .ok incs) →
      (∀ inc ∈ incoming, src.func.checkIncoming src.types d (b, blk) i inc = .ok ()) →
        ∃ flaw : Flaw, flaw.concernsEdges = true ∧
          src.func.checkPhi src.types d (b, blk) i incoming =
            .error (src.func.flawOf (b, blk) i flaw)) ∧
    (∀ incs, incomings src i incoming = .ok incs →
      incs.map (·.2) = blk.preds ∧ incs.Perm incoming) ∧
    (∀ {s s' : Compiler} {code : Lowered}, Compiler.compile src s = .ok code s' →
      ∃ incs phi operands, incomings src i incoming = .ok incs ∧ phi ∈ code.instrs.toList ∧
        phi.Is .phi (.reg (src.func.regOf ins.result) :: operands.flatten) ∧
        List.Forall₂ (Brings src) incs operands) ∧
    ∀ {s s' : Builder Opcode} {g : Graph Opcode}, Builder.build converter src s = .ok g s' →
      ∃ incs n args, incomings src i incoming = .ok incs ∧
        s'.memo[i]? = some (.converted (.chained n)) ∧ g.Has n b (.inst .phi) args.flatten ∧
        List.Forall₂ (BringsNode src g b) incs args := by
  have hn : blk.preds.Nodup := hf.oncePreds b blk hblk
  have heach : (∃ incs, incomings src i incoming = .ok incs) ↔
      Func.OneEach blk.preds incoming := exists_incomings_iff hins hb hblk hn
  refine ⟨heach.trans ⟨fun h => ⟨h.length_eq, h.nodup, h.mem⟩, fun h => ⟨h.1, h.2.1, h.2.2⟩⟩,
    fun d => ?_, fun d flaw hflaw herror hex => ?_, fun d hnot havail => ?_,
    fun incs hincs => (incomings_eq_ok_iff hins hb hblk hn).1 hincs,
    exists_phi_of_compile hf.coherent hins hb hop, exists_phi_of_build hf.coherent hins hb hop⟩
  · rw [heach, Func.checkPhi_eq_ok_iff]
  · exact (heach.1 hex).checkPhi_ne_flawOf hflaw herror
  · exact Func.exists_flawOf_of_not_oneEach hlt havail (mt heach.2 hnot)

/-- A loop whose phi names its blocks in another order than that of the predecessors. -/
def crossed : Source where
  types := Func.sampleTypes
  func := (Func.sampleStart.assemble [(0, 2), (1, 2)]
    [[.br 1], [.phi 2 [(8, 2), (1, 0)], .icmp .eq 3 5 2, .condBr 6 3 2],
      [.binary .sub 2 5 3, .br 1], [.ret (some 5)]]).getD Func.sampleStart

theorem built_crossed : crossed.func.Built := by
  simpa only [crossed] using Func.built_assembled _ _

theorem phi_checks_agree_crossed :
    crossed.func.predsOf 1 = [0, 2] ∧ incomings crossed 1 [(8, 2), (1, 0)] = .ok [(1, 0), (8, 2)] ∧
    [(1, 0), (8, 2)].Perm [((8 : ValueId), (2 : BlockId)), (1, 0)] ∧
    (∃ code s' phi operands, Compiler.compile crossed {} = .ok code s' ∧
      phi ∈ code.instrs.toList ∧ phi.Is .phi (.reg (crossed.func.regOf 5) :: operands.flatten) ∧
      List.Forall₂ (Brings crossed) [(1, 0), (8, 2)] operands) ∧
    ∃ g s' n args, Builder.build converter crossed {} = .ok g s' ∧
      g.Has n 1 (.inst .phi) args.flatten ∧
      List.Forall₂ (BringsNode crossed g 1) [(1, 0), (8, 2)] args := by
  have hincs : incomings crossed 1 [(8, 2), (1, 0)] = .ok [(1, 0), (8, 2)] := by decide +kernel
  have hcompiles : EStateM.gives (fun _ => True) (Compiler.compile crossed {}) = true := by
    decide +kernel
  have hbuilds : EStateM.gives (fun _ => True) (Builder.build converter crossed {}) = true := by
    decide +kernel
  obtain ⟨code, s₁, hcompile, -⟩ := EStateM.eq_ok_of_gives hcompiles
  obtain ⟨g, s₂, hbuild, -⟩ := EStateM.eq_ok_of_gives hbuilds
  have hins : crossed.func.instrs[1]? = some
      { op := some (.phi 2 [(8, 2), (1, 0)]), block := some 1, result := 5 } := by
    decide +kernel
  have hblk : crossed.func.blocks[1]? = some
      { name := "", instrs := [1, 2, 3], preds := [0, 2], succs := [3, 2] } := by
    decide +kernel
  obtain ⟨-, -, -, -, horder, hcode, hgraph⟩ := phi_checks_agree built_crossed.drafted hins rfl
    hblk rfl (by decide +kernel)
  obtain ⟨incs, phi, operands, hincs', hmem, hphi, hcarries⟩ := hcode hcompile
  obtain ⟨incs', n, args, hincs'', -, hn, hnodes⟩ := hgraph hbuild
  cases hincs.symm.trans hincs'
  cases hincs.symm.trans hincs''
  exact ⟨by decide +kernel, hincs, (horder _ hincs).2,
    ⟨code, s₁, phi, operands, hcompile, hmem, hphi, hcarries⟩, g, s₂, n, args, hbuild, hn, hnodes⟩

end X86

end Codegen
