import Codegen.Proofs.Imported
import Codegen.Proofs.Known

/-!
# What can be wrong with an imported function

The check of a function looks for empty blocks, for terminators at the wrong place, for operands
that are nowhere, and for values that are used where they are not defined. If every block ends with
its only terminator and every operand and every target is in the function, only the last kind is
left, and the flaws of phis. Imported functions are of this kind.

## Main definitions

* `Flaw.concernsFlow`: the flaws of phis and of values that are used where they are not defined.
* `Func.Tidy`: the functions whose blocks end with their terminators and whose operands exist.

## Main results

* `Func.Tidy.check_eq_error`: what the check reports of tidy functions.
* `Llvm.FuncImage.tidy`: imported functions are tidy.
* `Llvm.importModule_faithful`: the functions of an imported module stand for those of the module,
  and what the check can report of them.
-/

namespace Codegen

theorem Except.bind_eq_of_ok {ε α β : Type} {x : Except ε α} {a : α} {k : α → Except ε β}
    (hx : x = .ok a) : (x >>= k) = k a := by
  subst hx
  rfl

theorem Except.eq_ok_of_toOption {ε α : Type} {x : Except ε α} {a : α} (h : x.toOption = some a) :
    x = .ok a := by
  cases x with
  | error e => cases h
  | ok b => rw [Option.some.inj h]

/-- Whether a flaw is one of a phi, or of a value that is used where it is not defined. -/
def Flaw.concernsFlow : Flaw → Bool
  | latePhi | incomingCount _ _ | incomingTwice _ | notPredecessor _ | unavailable _ _ => true
  | usedBeforeDefined _ | notDominated _ => true
  | emptyBlock | earlyTerminator | noTerminator | notInserted _ => false

namespace Func

variable {f : Func} {types : TypeTable} {b c : BlockId} {i : InstrId} {v : ValueId} {e : Stop}
  {blk : Block} {d : Dominators}

/-- An error that reports such a flaw of an instruction. -/
def Complaint (f : Func) (blk : BlockId × Block) (i : InstrId) (e : Stop) : Prop :=
  ∃ flaw : Flaw, flaw.concernsFlow = true ∧
    e = .ofCause (.malformed f.name (blk.2.label blk.1) (some i) flaw)

/-- A value of the function that is no result of an instruction outside of all blocks. -/
def Placed (f : Func) (v : ValueId) : Prop :=
  ∃ x, f.values[v]? = some x ∧ ∀ j, x = .result j → (f.blockOf j).isSome

/-- Every block ends with its only terminator, every operand has a place, and every block that is
named is one of the function. -/
structure Tidy (f : Func) : Prop where
  ne_nil : ∀ b < f.blocks.size, f.instrsOf b ≠ []
  terminates_iff : ∀ {b before i after}, f.instrsOf b = before ++ i :: after →
    (f.Terminates i ↔ after = [])
  operands : ∀ i ∈ f.inserted, ∀ op, f.opOf i = some op → ∀ v ∈ op.args, f.Placed v
  targets : ∀ i ∈ f.inserted, ∀ op, f.opOf i = some op → ∀ c ∈ op.targets, c < f.blocks.size

theorem malformed_eq_error {α : Type} {flaw : Flaw} (hflaw : flaw.concernsFlow = true)
    (h : f.malformed (b, blk) (some i) flaw = (.error e : Except Stop α)) :
    f.Complaint (b, blk) i e := ⟨flaw, hflaw, (Except.error.inj h).symm⟩

/-! ### The shape of the blocks -/

theorem checkShape_cons_eq_error {rest : List InstrId} {phis : Bool} (hi : i < f.instrs.size)
    (hterm : f.Terminates i ↔ rest = [])
    (h : f.checkShape (b, blk) phis (i :: rest) = .error e) :
    f.Complaint (b, blk) i e ∨ ∃ phis, f.checkShape (b, blk) phis rest = .error e := by
  have hins := Array.getElem?_eq_getElem hi
  have hlast : f.instrs[i].isTerminator = rest.isEmpty := by
    rw [Bool.eq_iff_iff, isTerminator_iff hins, hterm, List.isEmpty_iff]
  rw [checkShape, Except.bind_eq_of_ok (liftFault_eq_ok.2 (instr_eq_ok.2 hins)), hlast,
    Bool.and_not_self] at h
  by_cases hphi : (f.instrs[i].isPhi && !phis) = true
  · rw [hphi] at h
    exact .inl (malformed_eq_error rfl h)
  · rw [Bool.not_eq_true] at hphi
    rw [hphi] at h
    exact .inr ⟨_, h⟩

/-- Of the shape of a block whose only terminator is at its end, a late phi is reported at most. -/
theorem checkShape_eq_error {rest : List InstrId} {phis : Bool}
    (hlt : ∀ i ∈ rest, i < f.instrs.size)
    (hterm : ∀ before i after, rest = before ++ i :: after → (f.Terminates i ↔ after = []))
    (h : f.checkShape (b, blk) phis rest = .error e) :
    ∃ i ∈ rest, f.Complaint (b, blk) i e := by
  induction rest generalizing phis with
  | nil => exact absurd h Except.pure_ne_error
  | cons i rest ih =>
    obtain ⟨hi, hlt⟩ := List.forall_mem_cons.1 hlt
    rcases checkShape_cons_eq_error hi (hterm [] i rest rfl) h with hi | ⟨phis, hrest⟩
    · exact ⟨i, List.mem_cons_self, hi⟩
    · obtain ⟨j, hj, hcomplaint⟩ := ih hlt (fun before j after hsplit =>
        hterm (i :: before) j after (by rw [hsplit, List.cons_append])) hrest
      exact ⟨j, List.mem_cons_of_mem _ hj, hcomplaint⟩

theorem checkBlock_eq_error (hc : f.Coherent) (ht : f.Tidy) (hb : f.blocks[b]? = some blk)
    (h : f.checkBlock (b, blk) = .error e) : ∃ i ∈ blk.instrs, f.Complaint (b, blk) i e := by
  have hinstrs := instrs_eq_instrsOf hb
  have hne : blk.instrs.isEmpty = false := by
    rw [List.isEmpty_eq_false_iff, ← hinstrs]
    exact ht.ne_nil b (Array.getElem?_eq_some_iff.1 hb).1
  rw [checkBlock, hne] at h
  refine checkShape_eq_error (fun i hi => ?_) (fun before i after hsplit => ?_) h
  · exact lt_instrs_of_mem hc (hinstrs ▸ hi)
  · exact ht.terminates_iff (hinstrs.trans hsplit)

/-! ### The operands -/

theorem Placed.lt_size (hv : f.Placed v) : v < f.values.size := by
  obtain ⟨x, hx, -⟩ := hv
  exact (Array.getElem?_eq_some_iff.1 hx).1

theorem Placed.definingInstr (hv : f.Placed v) (hc : f.Coherent) :
    f.definingInstr v = .ok none ∨
      ∃ j ins c, f.definingInstr v = .ok (some j) ∧ f.instr j = .ok ins ∧ ins.block = some c := by
  obtain ⟨x, hx, hplaced⟩ := hv
  rcases definingInstr_cases hc (Array.getElem?_eq_some_iff.1 hx).1 with
    ⟨hdef, -⟩ | ⟨j, ins, hdef, hval, hins, hblock⟩
  · exact .inl hdef
  · obtain ⟨c, hc⟩ := Option.isSome_iff_exists.1 (hplaced j (Option.some.inj (hx.symm.trans hval)))
    exact .inr ⟨j, ins, c, hdef, hins, hblock ▸ hc⟩

theorem checkIncoming_eq_error (hc : f.Coherent) (hv : f.Placed v) (hlt : c < f.blocks.size)
    (h : f.checkIncoming types d (b, blk) i (v, c) = .error e) :
    f.Complaint (b, blk) i e := by
  obtain ⟨vtext, hvtext⟩ := exists_valueText types hv.lt_size
  obtain ⟨ctext, hctext⟩ := exists_blockName hlt
  rw [checkIncoming] at h
  rcases hv.definingInstr hc with hdef | ⟨j, ins, p, hdef, hins, hblock⟩
  · rw [Except.bind_eq_of_ok (liftFault_eq_ok.2 hdef)] at h
    exact absurd h Except.pure_ne_error
  · rw [Except.bind_eq_of_ok (liftFault_eq_ok.2 hdef)] at h
    simp only at h
    split at h
    · rw [Except.bind_eq_of_ok (liftFault_eq_ok.2 hins)] at h
      simp only [hblock] at h
      split at h
      · rw [Except.bind_eq_of_ok (liftFault_eq_ok.2 hvtext),
          Except.bind_eq_of_ok (liftFault_eq_ok.2 hctext)] at h
        exact malformed_eq_error rfl h
      · exact absurd h Except.pure_ne_error
    · exact absurd h Except.pure_ne_error

theorem checkIncomings_eq_error (hc : f.Coherent) {seen : List BlockId}
    {incoming : List (ValueId × BlockId)}
    (hv : ∀ inc ∈ incoming, f.Placed inc.1) (hlt : ∀ inc ∈ incoming, inc.2 < f.blocks.size)
    (h : f.checkIncomings types d (b, blk) i seen incoming = .error e) :
    f.Complaint (b, blk) i e := by
  induction incoming generalizing seen with
  | nil => exact absurd h Except.pure_ne_error
  | cons inc incoming ih =>
    obtain ⟨hvinc, hv⟩ := List.forall_mem_cons.1 hv
    obtain ⟨hltinc, hlt⟩ := List.forall_mem_cons.1 hlt
    obtain ⟨text, htext⟩ := exists_blockName hltinc
    rw [checkIncomings] at h
    split at h
    · rw [Except.bind_eq_of_ok (liftFault_eq_ok.2 htext)] at h
      exact malformed_eq_error rfl h
    · simp only at h
      split at h
      · rw [Except.bind_eq_of_ok (liftFault_eq_ok.2 htext)] at h
        exact malformed_eq_error rfl h
      · rcases Except.bind_eq_error.1 h with hinc | ⟨_, -, hrest⟩
        · exact checkIncoming_eq_error hc hvinc hltinc hinc
        · exact ih hv hlt hrest

theorem checkPhi_eq_error (hc : f.Coherent) {incoming : List (ValueId × BlockId)}
    (hv : ∀ inc ∈ incoming, f.Placed inc.1) (hlt : ∀ inc ∈ incoming, inc.2 < f.blocks.size)
    (h : f.checkPhi types d (b, blk) i incoming = .error e) : f.Complaint (b, blk) i e := by
  rw [checkPhi] at h
  split at h
  · exact malformed_eq_error rfl h
  · exact checkIncomings_eq_error hc hv hlt h

theorem checkOperand_eq_error (hc : f.Coherent) (hv : f.Placed v)
    (h : f.checkOperand types d (b, blk) i v = .error e) : f.Complaint (b, blk) i e := by
  obtain ⟨text, htext⟩ := exists_valueText types hv.lt_size
  rw [checkOperand] at h
  rcases hv.definingInstr hc with hdef | ⟨j, ins, p, hdef, hins, hblock⟩
  · rw [Except.bind_eq_of_ok (liftFault_eq_ok.2 hdef)] at h
    exact absurd h Except.pure_ne_error
  · rw [Except.bind_eq_of_ok (liftFault_eq_ok.2 hdef)] at h
    simp only at h
    rw [Except.bind_eq_of_ok (liftFault_eq_ok.2 hins)] at h
    simp only [hblock] at h
    split at h
    · split at h
      · rw [Except.bind_eq_of_ok (liftFault_eq_ok.2 htext)] at h
        exact malformed_eq_error rfl h
      · exact absurd h Except.pure_ne_error
    · split at h
      · rw [Except.bind_eq_of_ok (liftFault_eq_ok.2 htext)] at h
        exact malformed_eq_error rfl h
      · exact absurd h Except.pure_ne_error

theorem checkInstr_eq_error (hc : f.Coherent) (ht : f.Tidy) (hi : i ∈ f.instrsOf b)
    (h : f.checkInstr types d (b, blk) i = .error e) : f.Complaint (b, blk) i e := by
  have hinserted : i ∈ f.inserted := mem_inserted.2 ⟨b, hi⟩
  obtain ⟨op, hop⟩ := Option.isSome_iff_exists.1 (hc.isSome_opOf (hc.mem_instrsOf.1 hi))
  obtain ⟨ins, hins, hinsop⟩ := Option.bind_eq_some_iff.1 hop
  have hoperands := ht.operands i hinserted op hop
  have htargets := ht.targets i hinserted op hop
  rw [checkInstr, Except.bind_eq_of_ok (liftFault_eq_ok.2 (instr_eq_ok.2 hins)), hinsop] at h
  by_cases hphi : ∃ t incoming, op = .phi t incoming
  · obtain ⟨t, incoming, rfl⟩ := hphi
    exact checkPhi_eq_error hc (List.forall_mem_map.1 hoperands) (List.forall_mem_map.1 htargets) h
  · have hargs : ins.args = .ok op.args := by simp [Instr.args, hinsop]
    have hcheck : (if d.reachable b = true then
        (liftM ins.args : Except Stop (List ValueId)) >>=
          (·.forM (f.checkOperand types d (b, blk) i))
        else pure ()) = .error e := by
      cases op with
      | phi t incoming => exact absurd ⟨t, incoming, rfl⟩ hphi
      | _ => exact h
    split at hcheck
    · rw [Except.bind_eq_of_ok (liftFault_eq_ok.2 hargs)] at hcheck
      obtain ⟨v, hv, hstop⟩ := Except.exists_of_forM_eq_error hcheck
      exact checkOperand_eq_error hc (hoperands v hv) hstop
    · exact absurd hcheck Except.pure_ne_error

/-! ### Whole functions -/

/-- The check reports no flaw of a tidy function but one of a phi or of a value that is used where
it is not defined. -/
theorem Tidy.check_eq_error (hc : f.Consistent) (ht : f.Tidy) (h : f.check types = .error e) :
    ∃ b blk i, f.blocks[b]? = some blk ∧ i ∈ blk.instrs ∧ f.Complaint (b, blk) i e := by
  rw [check] at h
  split at h
  · exact absurd h Except.pure_ne_error
  · rcases Except.bind_eq_error.1 h with hshape | ⟨_, -, huses⟩
    · obtain ⟨⟨b, blk⟩, hmem, hstop⟩ := Except.exists_of_forM_eq_error hshape
      have hb := mem_layout.1 hmem
      obtain ⟨i, hi, hcomplaint⟩ := checkBlock_eq_error hc.coherent ht hb hstop
      exact ⟨b, blk, i, hb, hi, hcomplaint⟩
    · obtain ⟨d, hd, -⟩ := exists_dominators hc
      rw [checkUses, Except.bind_eq_of_ok (liftFault_eq_ok.2 hd)] at huses
      obtain ⟨⟨b, blk⟩, hmem, hstop⟩ := Except.exists_of_forM_eq_error huses
      obtain ⟨i, hi, hstop⟩ := Except.exists_of_forM_eq_error hstop
      have hb := mem_layout.1 hmem
      have hinstr : i ∈ f.instrsOf b := instrs_eq_instrsOf hb ▸ hi
      exact ⟨b, blk, i, hb, hi, checkInstr_eq_error hc.coherent ht hinstr hstop⟩

end Func

namespace Llvm

variable {m : Module} {types : TypeTable} {f : Func} {g : Codegen.Func} {scope : Scope}
  {s : Importer} {op : InstOp} {t : Terminator} {o : Operation}

/-! ### Imported functions -/

theorem OpImage.isTerminator_eq (h : OpImage m scope s op o) : o.isTerminator = false := by
  cases h <;> rfl

theorem TermImage.isTerminator_eq (h : TermImage m scope s t o) : o.isTerminator = true := by
  cases h <;> rfl

theorem OpImage.targets_eq (h : OpImage m scope s op o) {c : BlockId} (hc : c ∈ o.targets) :
    ∃ n, scope.blocks.lookup n = some c := by
  cases h with
  | phi _ hxs =>
    obtain ⟨x, hx, rfl⟩ := List.mem_map.1 hc
    obtain ⟨inc, -, -, hn⟩ := exists_mem_of_forall₂ (List.Forall₂.flip hxs) hx
    exact ⟨inc.2, hn⟩
  | _ => cases hc

theorem TermImage.targets_eq (h : TermImage m scope s t o) {c : BlockId} (hc : c ∈ o.targets) :
    ∃ n, scope.blocks.lookup n = some c := by
  cases h with
  | br hb => exact ⟨_, List.mem_singleton.1 hc ▸ hb⟩
  | condBr _ ht he =>
    rcases List.mem_cons.1 hc with rfl | hc
    · exact ⟨_, ht⟩
    · exact ⟨_, List.mem_singleton.1 hc ▸ he⟩
  | ret | retValue => cases hc

theorem SourceImage.targets_eq {source : InstOp ⊕ Terminator} (h : SourceImage m scope s source o)
    {c : BlockId} (hc : c ∈ o.targets) : ∃ n, scope.blocks.lookup n = some c := by
  cases source with
  | inl op => exact OpImage.targets_eq h hc
  | inr t => exact TermImage.targets_eq h hc

theorem mem_of_lookup_eq_some {α : Type} {l : List (Name × α)} {n : Name} {a : α}
    (h : l.lookup n = some a) : (n, a) ∈ l := by
  obtain ⟨l₁, l₂, rfl, -⟩ := List.lookup_eq_some_iff.1 h
  exact List.mem_append_right _ List.mem_cons_self

namespace FuncImage

variable {b : BlockId} {c : Codegen.Block} {i : InstrId}

theorem exists_blockImage (h : FuncImage m types f g) (hc : g.blocks[b]? = some c) :
    ∃ blk, f.blocks[b]? = some blk ∧ BlockImage m (f.scopeIn g) ⟨types, g⟩ blk c := by
  exact exists_getElem?_of_forall₂ (List.Forall₂.flip h.blocks) (by simpa using hc)

/-- Every inserted instruction stands for an instruction or for a terminator. -/
theorem exists_source (h : FuncImage m types f g) (hi : i ∈ g.inserted) (hop : g.opOf i = some o) :
    ∃ source, SourceImage m (f.scopeIn g) ⟨types, g⟩ source o := by
  obtain ⟨b, hib⟩ := Codegen.Func.mem_inserted.1 hi
  have hb := Array.getElem?_eq_getElem (Codegen.Func.lt_size_of_mem_instrsOf hib)
  obtain ⟨blk, -, himage⟩ := h.exists_blockImage hb
  rw [Codegen.Func.instrs_eq_instrsOf hb] at hib
  obtain ⟨source, -, op, hop', hsource⟩ := exists_mem_of_forall₂ (List.Forall₂.flip himage.code) hib
  cases hop.symm.trans hop'
  exact ⟨source, hsource⟩

theorem placed {x : Operand} {v : ValueId} (h : FuncImage m types f g)
    (hv : OperandImage m (f.scopeIn g) ⟨types, g⟩ x v) : g.Placed v := by
  have hcon := h.built.consistent
  cases hv with
  | const _ _ _ hv => exact ⟨_, hv, fun _ hj => by cases hj⟩
  | @var _ n _ hn =>
    rcases List.mem_append.1 (mem_of_lookup_eq_some hn) with hmem | hmem
    · obtain ⟨k, hk⟩ := List.mem_iff_getElem?.1 (List.of_mem_zip hmem).2
      obtain ⟨t, ht⟩ := hcon.param_arg hk
      exact ⟨_, ht, fun _ hj => by cases hj⟩
    · obtain ⟨⟨l, i⟩, hli, hresult⟩ := List.mem_filterMap.1 hmem
      obtain ⟨_, -, hresult⟩ := Option.bind_eq_some_iff.1 hresult
      obtain ⟨ins, hins, hpair⟩ := Option.map_eq_some_iff.1 hresult
      cases hpair
      refine ⟨_, hcon.result_value hins, fun j hj => ?_⟩
      cases hj
      obtain ⟨b, hb⟩ := Codegen.Func.mem_inserted.1 (List.of_mem_zip hli).2
      exact Option.isSome_iff_exists.2 ⟨b, hcon.mem_instrsOf.1 hb⟩

theorem target_lt {n : Name} (h : FuncImage m types f g)
    (hn : (f.scopeIn g).blocks.lookup n = some b) : b < g.blocks.size := by
  have hlt : b < f.blocks.length := by
    simpa using List.snd_lt_of_mem_zipIdx (mem_of_lookup_eq_some hn)
  rwa [h.blocks.length_eq, Array.length_toList] at hlt

/-- An imported block ends with its only terminator. -/
theorem terminates_iff (h : FuncImage m types f g) {before after : List InstrId}
    (hsplit : g.instrsOf b = before ++ i :: after) : g.Terminates i ↔ after = [] := by
  have hi : i ∈ g.instrsOf b := by simp [hsplit]
  have hget := Array.getElem?_eq_getElem (Codegen.Func.lt_size_of_mem_instrsOf hi)
  obtain ⟨blk, -, himage⟩ := h.exists_blockImage hget
  obtain ⟨t, ht⟩ := himage.term
  have hsources : blk.sources = blk.insts.map (.inl ·.op) ++ [.inr t] := by
    simp [Block.sources, ht]
  have hcode := List.Forall₂.flip himage.code
  rw [← Codegen.Func.instrs_eq_instrsOf hget, hsplit, hsources] at hcode
  obtain ⟨r₁, r₂, hr, -, hcode⟩ := exists_append_of_forall₂ hcode
  cases hcode with
  | @cons _ source _ rest hsource hrest =>
    obtain ⟨op, hop, himage⟩ := hsource
    have hterminates : g.Terminates i ↔ op.isTerminator = true := by
      simp [Codegen.Func.Terminates, show g.opOf i = some op from hop]
    rw [hterminates]
    cases hafter : after with
    | nil =>
      -- The last instruction stands for the terminator.
      rw [hafter] at hrest
      cases hrest
      obtain rfl : source = .inr t := by simpa using (List.append_inj_right' hr rfl).symm
      simpa using TermImage.isTerminator_eq himage
    | cons j after =>
      -- What comes before it stands for an instruction.
      rw [hafter] at hrest
      cases hrest with
      | @cons _ next _ rest _ _ =>
        have hmem : source ∈ blk.insts.map (.inl ·.op) := by
          have hlast := congrArg List.dropLast hr
          rw [List.dropLast_concat] at hlast
          simp [hlast]
        obtain ⟨inst, -, rfl⟩ := List.mem_map.1 hmem
        simp [OpImage.isTerminator_eq himage]

/-- Imported functions are tidy. -/
theorem tidy (h : FuncImage m types f g) : g.Tidy where
  ne_nil b hb hnil := by
    have hget := Array.getElem?_eq_getElem hb
    obtain ⟨blk, -, himage⟩ := h.exists_blockImage hget
    obtain ⟨t, ht⟩ := himage.term
    have hlength := himage.code.length_eq
    rw [← Codegen.Func.instrs_eq_instrsOf hget, hnil] at hlength
    simp [Block.sources, ht] at hlength
  terminates_iff := h.terminates_iff
  operands i hi op hop v hv := by
    obtain ⟨source, hsource⟩ := h.exists_source hi hop
    obtain ⟨x, -, hx⟩ := exists_mem_of_forall₂ (List.Forall₂.flip hsource.operands) hv
    exact h.placed hx
  targets i hi op hop c hc := by
    obtain ⟨source, hsource⟩ := h.exists_source hi hop
    obtain ⟨n, hn⟩ := hsource.targets_eq hc
    exact h.target_lt hn

end FuncImage

/-- The name that is written as a word. -/
def sampleName (word : String) : Name := .text (encode word)

/-- The parameter or result of 32 bits with a word as its name. -/
def sampleOperand (word : String) : Operand := .var (.int 32) (sampleName word)

/-- A function with a loop that reads a value of the block behind it. -/
def crossing : Module where
  funcs := [{
    name := sampleName "f"
    result := .int 32
    params := [⟨.int 32, sampleName "a"⟩]
    variadic := false
    blocks := [
      { name := sampleName "entry"
        insts := []
        term := some (.br (.block (sampleName "loop"))) },
      { name := sampleName "loop"
        insts := [
          ⟨sampleName "p", .phi (.int 32) [(sampleOperand "a", sampleName "entry"),
            (sampleOperand "q", sampleName "loop")]⟩,
          ⟨sampleName "q", .binary .add (.int 32) (sampleOperand "p") (sampleOperand "r")⟩,
          ⟨sampleName "c", .icmp (.known .slt) (.int 32) (sampleOperand "q")
            (.const (.int (.int 32) 10))⟩]
        term := some (.condBr (.var (.int 1) (sampleName "c")) (sampleName "loop")
          (sampleName "exit")) },
      { name := sampleName "exit"
        insts := [⟨sampleName "r", .binary .sub (.int 32) (sampleOperand "q") (sampleOperand "a")⟩]
        term := some (.ret (sampleOperand "r")) }] }]

end Llvm

end Codegen
