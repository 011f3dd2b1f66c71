import Codegen.Proofs.Layout
import Codegen.Proofs.Words

/-!
# When a frame and a state of the machine agree

While a function and its lowered form run side by side, the machine holds in registers what the
frame knows about arguments, sums, loaded words and phis. It holds nothing for addresses, which are
fixed, and for comparisons, which are made again where they are needed. For these the frame has to
know at every point that comparing again would give the same.

## Main definitions

* `X86.Translation`: a lowered function together with what is known about its source.
* `X86.Holds`, `X86.Agrees`: what the machine holds for one instruction and for all that are
  available.

## Main results

* `X86.Agrees.operand`: an operand means what its value means.
* `X86.Agrees.extend`: new results leave the agreement on the others as it is.
-/

namespace Codegen

namespace X86

variable {src : Source} {code : Lowered} {inp : Inputs} {fr fr' : Frame} {s s' : State}
  {live : InstrId → Prop} {b : BlockId} {i j k : InstrId} {v : ValueId}

/-- A lowered function together with what is known about its source. -/
structure Translation (src : Source) (code : Lowered) : Prop where
  consistent : src.func.Consistent
  wellFormed : src.func.WellFormed
  wellTyped : src.WellTyped
  laid : Laid src code

/-- What a frame and the machine know about an instruction whose result is available. -/
structure Holds (src : Source) (inp : Inputs) (fr : Frame) (s : State) (j : InstrId) : Prop where
  /-- The address of a slot is always the same. -/
  address : src.func.isAlloca j = true → fr.results j = some (.address (src.func.slotOf j))
  /-- Comparing again would give the same. -/
  condition : ∀ {p t x y}, src.func.opOf j = some (.icmp p t x y) →
    (fr.results j).isSome ∧ src.compare inp fr p x y = fr.results j
  /-- What is carried in a register is a number of its width. -/
  number : ∀ {ins op}, src.func.instrs[j]? = some ins → ins.op = some op → op.isCarried = true →
    src.func.InRegister ins.result ∧
      s.regs (src.func.regOf ins.result) < 2 ^ src.types.width ins.type ∧
      fr.results j = some (.number (s.regs (src.func.regOf ins.result)))

/-- A frame and a state of the machine that know the same about the arguments, the slots and the
instructions whose results are available. -/
structure Agrees (src : Source) (inp : Inputs) (live : InstrId → Prop) (fr : Frame) (s : State) :
    Prop where
  mem : s.mem = fr.mem
  arg : ∀ {v n t}, src.func.values[v]? = some (.arg n t) →
    s.regs (src.func.regOf v) = (BitVec.ofNat (src.types.width t) (inp.args n)).toNat
  result : ∀ {j}, live j → Holds src inp fr s j

/-! ### Results that stay as they are -/

theorem evalValue_congr
    (h : ∀ k, src.func.values[v]? = some (.result k) → fr'.results k = fr.results k) :
    src.evalValue inp fr' v = src.evalValue inp fr v := by
  unfold Source.evalValue
  split
  · next k hk => exact h k hk
  all_goals rfl

theorem compare_congr {p : Predicate} {x y : ValueId} (h : ∀ v ∈ [x, y], ∀ k,
    src.func.values[v]? = some (.result k) → fr'.results k = fr.results k) :
    src.compare inp fr' p x y = src.compare inp fr p x y := by
  rw [Source.compare, Source.compare, evalValue_congr (h x (by simp)),
    evalValue_congr (h y (by simp))]

/-- Nothing is carried in a register for an address, a condition or an instruction without result.
-/
theorem Holds.of_not_carried {op : Operation} (hop : src.func.opOf j = some op)
    (hc : op.isCarried = false)
    (ha : src.func.isAlloca j = true → fr.results j = some (.address (src.func.slotOf j)))
    (hcond : ∀ p t x y, op = .icmp p t x y →
      (fr.results j).isSome ∧ src.compare inp fr p x y = fr.results j) : Holds src inp fr s j := by
  refine ⟨ha, fun {p t x y} hicmp => hcond p t x y (Option.some.inj (hop.symm.trans hicmp)),
    fun {ins op'} hins hop' hc' => ?_⟩
  obtain rfl : op' = op := by simpa [Func.opOf, hins, hop'] using hop
  rw [hc] at hc'
  cases hc'

/-- What is carried in a register is neither an address nor a condition. -/
theorem Holds.of_carried {ins : Codegen.Instr} {op : Operation}
    (hins : src.func.instrs[j]? = some ins) (hop : ins.op = some op) (hc : op.isCarried = true)
    (hv : src.func.InRegister ins.result)
    (hlt : s.regs (src.func.regOf ins.result) < 2 ^ src.types.width ins.type)
    (hres : fr.results j = some (.number (s.regs (src.func.regOf ins.result)))) :
    Holds src inp fr s j := by
  have hopOf : src.func.opOf j = some op := by simp [Func.opOf, hins, hop]
  refine ⟨fun ha => ?_, fun hicmp => ?_, fun {ins' op'} hins' _ _ => ?_⟩
  · cases op <;> simp_all [Func.isAlloca, Operation.isCarried]
  · cases op <;> simp_all [Operation.isCarried]
  · obtain rfl := Option.some.inj (hins.symm.trans hins')
    exact ⟨hv, hlt, hres⟩

/-- An instruction keeps what is known about it if its result, its register and the results that it
has read stay as they are. -/
theorem Holds.frame (h : Holds src inp fr s j) (hres : fr'.results j = fr.results j)
    (hargs : ∀ op, src.func.opOf j = some op → op.isPhi = false → ∀ v ∈ op.args, ∀ k,
      src.func.values[v]? = some (.result k) → fr'.results k = fr.results k)
    (hreg : ∀ ins, src.func.instrs[j]? = some ins → src.func.InRegister ins.result →
      s'.regs (src.func.regOf ins.result) = s.regs (src.func.regOf ins.result)) :
    Holds src inp fr' s' j := by
  refine ⟨fun ha => hres.trans (h.address ha), fun {p t x y} hop => ?_,
    fun {ins op} hins hop hc => ?_⟩
  · rw [hres, compare_congr (hargs _ hop rfl)]
    exact h.condition hop
  · obtain ⟨hv, hlt, hnum⟩ := h.number hins hop hc
    rw [hres, hreg ins hins hv]
    exact ⟨hv, hlt, hnum⟩

/-- New results behind a point of a block leave the agreement on the others as it is. -/
theorem Agrees.extend (T : Translation src code) (hr : src.func.Reachable b)
    {before new after : List InstrId} (hb : src.func.instrsOf b = before ++ (new ++ after))
    (h : Agrees src inp (src.func.Available b before) fr s) (hmem : s'.mem = fr'.mem)
    (hres : ∀ j ∉ new, fr'.results j = fr.results j)
    (hregs : ∀ v, src.func.InRegister v → (∀ j ∈ new, src.func.values[v]? ≠ some (.result j)) →
      s'.regs (src.func.regOf v) = s.regs (src.func.regOf v))
    (hnew : ∀ j ∈ new, Holds src inp fr' s' j) :
    Agrees src inp (src.func.Available b (before ++ new)) fr' s' := by
  have hblock : ∀ j ∈ new, src.func.blockOf j = some b := fun j hj =>
    T.consistent.mem_instrsOf.1 (by simp [hb, hj])
  have hold {j : InstrId} (hj : src.func.Available b before j) : j ∉ new := fun hmem =>
    hj.not_mem T.consistent hb (List.mem_append_left _ hmem)
  refine ⟨hmem, fun {v n t} hv => ?_, fun {j} hj => ?_⟩
  · rw [hregs v (Func.inRegister_param (List.mem_of_getElem? (T.consistent.arg_param hv)))
      (fun j _ => by simp [hv])]
    exact h.arg hv
  · rcases (Func.available_append hblock).1 hj with hj | hj
    · refine (h.result hj).frame (hres j (hold hj)) (fun op hop hphi v hv k hk => ?_)
        (fun ins hins hin => hregs _ hin fun i hi => ?_)
      · exact hres k (hold (hj.operand T.consistent T.wellFormed hr hb hop hphi hv hk))
      · rw [T.consistent.result_value hins]
        rintro ⟨⟩
        exact hold hj hi
    · exact hnew j hj

/-! ### Operands -/

theorem Translation.width_regOf (T : Translation src code) (hv : src.func.InRegister v) :
    code.width src.types (src.func.regOf v) = src.widthOf v := by
  obtain ⟨c, hc, hregs⟩ := T.laid.context
  rw [Lowered.width, hregs, regWidth_regOf hc hv]

theorem Translation.isReal_regOf (T : Translation src code) (hv : src.func.InRegister v) :
    (src.func.regOf v).isReal = false := by
  obtain ⟨c, hc, -⟩ := T.laid.context
  exact hc.isReal_regOf hv

theorem Translation.regOf_ne (T : Translation src code) {w : ValueId} (hv : src.func.InRegister v)
    (hw : src.func.InRegister w) (hne : v ≠ w) : src.func.regOf v ≠ src.func.regOf w := by
  obtain ⟨c, hc, -⟩ := T.laid.context
  exact fun he => hne (hc.regOf_inj hv hw he)

/-- An operand means what its value means, unless that is a condition. -/
theorem Agrees.operand (T : Translation src code) (h : Agrees src inp live fr s) {o : Operand}
    (ho : Stands src v o) (hread : ∀ k, src.func.values[v]? = some (.result k) →
      live k ∧ k ∈ src.func.inserted ∧ ∀ p t x y, src.func.opOf k ≠ some (.icmp p t x y)) :
    ∃ n, src.evalValue inp fr v = some (.number n) ∧
      s.operandNumber (src.widthOf v) o = some n ∧
      (src.isWord v = true → s.operandWord o = some (BitVec.ofNat 32 n)) := by
  cases ho with
  | reg hv ha =>
    rcases hv.cases T.consistent.toNaming with ⟨n, t, hx⟩ | ⟨k, ins, hk, hins, hr, rfl⟩
    · refine ⟨s.regs (src.func.regOf v), by simp [Source.evalValue, hx, h.arg hx], ?_, fun _ => rfl⟩
      simp [State.operandNumber, h.arg hx, Source.widthOf_eq (Func.valueType_arg hx)]
    · have hx := T.consistent.result_value hins
      obtain ⟨hlive, -, hc⟩ := hread k hx
      obtain ⟨op, hop, hcarried⟩ := T.laid.isCarried hk hins hr (ha k hx) hc
      obtain ⟨-, hlt, hres⟩ := (h.result hlive).number hins hop hcarried
      refine ⟨s.regs (src.func.regOf ins.result), by simp [Source.evalValue, hx, hres], ?_,
        fun _ => rfl⟩
      rw [Source.widthOf_eq (Func.valueType_result T.consistent.toNaming hins)]
      simp [State.operandNumber, Nat.mod_eq_of_lt hlt]
  | @imm x t bits imm hx hu ht hbits himm =>
    obtain ⟨payload, rfl, hw⟩ := hu.eq_const T.consistent.toNaming hx
      (fun k hk => (hread k (hk ▸ hx)).2.1) ht hbits
    have hof := ofInt_imm32 himm
    rw [← hw, Value.payload] at hof
    refine ⟨(BitVec.ofInt (src.types.width t) payload.toInt).toNat, by simp [Source.evalValue, hx],
      ?_, fun hword => ?_⟩
    · rw [Source.widthOf_eq ht, State.operandNumber, hof]
    · rw [← Source.widthOf_eq ht, Source.widthOf_of_isWord hword] at hof ⊢
      rw [State.operandWord, BitVec.ofNat_toNat, BitVec.setWidth_eq, ← hof]
      exact congrArg some (BitVec.ofInt_toInt).symm

/-- A value that can be compared means something. -/
theorem Agrees.isSome_evalValue (T : Translation src code) (h : Agrees src inp live fr s)
    (hv : src.isComparable v = true) (hread : ∀ k, src.func.values[v]? = some (.result k) → live k)
    (hin : ∀ k, live k → k ∈ src.func.inserted) : (src.evalValue inp fr v).isSome := by
  unfold Source.isComparable at hv
  split at hv
  · next t ht =>
    simp only [Bool.and_eq_true, bne_iff_ne, Bool.or_eq_true, beq_iff_eq] at hv
    obtain ⟨hvoid, hkind⟩ := hv
    have hinvalid : t ≠ TypeId.invalid := by
      rintro rfl
      simp [TypeTable.kind, TypeTable.get?, TypeId.invalid] at hkind
    cases hx : src.func.values[v]? with
    | none => simp [Func.valueType, Func.value, hx, bind, Except.bind] at ht
    | some x =>
      cases x with
      | absent =>
        simp [Func.valueType, Func.value, hx, bind, Except.bind, pure, Except.pure] at ht
        exact absurd ht.symm hinvalid
      | const payload t' => simp [Source.evalValue, hx]
      | arg n t' => simp [Source.evalValue, hx]
      | result k =>
        obtain ⟨ins, hins, rfl⟩ := T.consistent.value_result hx
        rw [Func.valueType_result T.consistent.toNaming hins, Except.ok.injEq] at ht
        have hr : ins.hasResult = true := by
          simp [Codegen.Instr.hasResult, ht, hvoid, hinvalid]
        have hholds := h.result (hread k hx)
        have heval : src.evalValue inp fr ins.result = fr.results k := by
          simp [Source.evalValue, hx]
        rw [heval]
        by_cases ha : src.func.isAlloca k = true
        · simp [hholds.address ha]
        · by_cases hc : ∃ p t x y, src.func.opOf k = some (.icmp p t x y)
          · obtain ⟨p, t, x, y, hicmp⟩ := hc
            exact (hholds.condition hicmp).1
          · obtain ⟨op, hop, hcarried⟩ := T.laid.isCarried (hin k (hread k hx)) hins hr
              (by simpa using ha) (fun p t x y hicmp => hc ⟨p, t, x, y, hicmp⟩)
            simp [(hholds.number hins hop hcarried).2.2]
  · cases hv

end X86

end Codegen
