import Codegen.Proofs.Selection

/-!
# Words, immediates and flags

Two facts about machine words carry the comparison of the two ways in which a function is run. A
constant that is cut to an immediate of 32 bits means the same at every width at which it is used,
since wider constants have to fit. A jump after a comparison happens exactly if the predicate holds,
also when the operands are compared in the other order.

## Main results

* `X86.ofInt_imm32`: an immediate stands for its constant.
* `X86.taken_ofSub`, `X86.Compares.taken`: a jump after a comparison decides the predicate.
-/

namespace Codegen.X86

/-! ### Immediates -/

/-- What selection takes for a constant is one, if its type is an integer type and no operand is the
result of an instruction that was never inserted. -/
theorem Unproduced.eq_const {src : Source} (hn : src.func.Naming) {v : ValueId} {x : Value}
    (hu : Unproduced src.func v x) (hx : src.func.values[v]? = some x)
    (hin : ∀ k, x = .result k → k ∈ src.func.inserted) {t : TypeId} {bits : Nat}
    (ht : src.func.valueType v = .ok t) (hbits : src.types.intBits t = .ok bits) :
    ∃ payload, x = .const payload t ∧ src.types.width t = bits := by
  have hw := TypeTable.width_of_intBits hbits
  cases x with
  | const payload t' =>
    rw [Func.valueType_const hx] at ht
    exact ⟨payload, by rw [Except.ok.inj ht], hw⟩
  | result k => exact absurd (hin k rfl) (unproduced_result.1 hu)
  | arg n t' =>
    have hmem := List.mem_of_getElem? (hn.arg_param hx)
    simp [Unproduced, Value.positionIn, hmem] at hu
  | absent =>
    simp [Func.valueType, Func.value_eq_ok.2 hx, bind, Except.bind, pure, Except.pure] at ht
    subst ht
    simp [TypeTable.intBits, TypeTable.get, TypeTable.get?, TypeId.invalid, bind,
      Except.bind] at hbits

/-- Cutting a constant keeps its low bits. -/
theorem ofInt_bmod {w n : Nat} (h : w ≤ n) (x : Int) :
    BitVec.ofInt w (x.bmod (2 ^ n)) = BitVec.ofInt w x := by
  apply BitVec.eq_of_toInt_eq
  rw [BitVec.toInt_ofInt, BitVec.toInt_ofInt, Int.bmod_bmod_of_dvd (Nat.pow_dvd_pow 2 h)]

/-- An immediate stands for its constant at the width of the constant. -/
theorem ofInt_imm32 {payload : Int64} {w : Nat} {imm : Int32} (h : imm32? payload w = some imm) :
    BitVec.ofInt w imm.toInt = BitVec.ofInt w payload.toInt := by
  unfold imm32? at h
  split at h
  · next hw =>
    obtain rfl := Option.some.inj h
    rw [Int64.toInt_toInt32, ofInt_bmod (by omega)]
  · split at h
    · cases h
    · next hfit =>
      obtain rfl := Option.some.inj h
      rw [Int64.toInt_toInt32, Int.bmod_eq_of_le (by omega) (by omega)]

/-! ### Flags -/

/-- After a comparison the sign differs from the overflow exactly if the left operand is less. -/
theorem sign_ne_overflow (x y : BitVec 32) :
    ((Flags.ofSub x y).sign != (Flags.ofSub x y).overflow) = x.slt y := by
  have hx := x.toInt_lt
  have hx' := x.le_toInt
  have hy := y.toInt_lt
  have hy' := y.le_toInt
  simp only [Flags.ofSub, BitVec.msb_eq_toInt, BitVec.slt_eq_decide, BitVec.toInt_sub]
  -- Where the difference overflows its sign is the wrong one.
  by_cases hover : (x.toInt - y.toInt).bmod (2 ^ 32) = x.toInt - y.toInt
  · have hlt : x.toInt - y.toInt < 0 ↔ x.toInt < y.toInt := by omega
    rw [hover, bne_self_eq_false, Bool.bne_false]
    simp only [hlt]
  · have hlt : (x.toInt - y.toInt).bmod (2 ^ 32) < 0 ↔ ¬x.toInt < y.toInt := by
      rw [Int.bmod_def] at hover ⊢
      split <;> omega
    rw [bne_iff_ne.2 hover]
    simp only [hlt, Bool.bne_true, decide_not, Bool.not_not]

theorem zero_ofSub (x y : BitVec 32) : (Flags.ofSub x y).zero = decide (x.toInt = y.toInt) := by
  rw [Bool.eq_iff_iff, Flags.ofSub, beq_iff_eq, decide_eq_true_eq, BitVec.toInt_inj]
  constructor <;> intro h <;> bv_omega

/-- A jump after a comparison happens exactly if the predicate holds. -/
theorem taken_ofSub {p : Predicate} {jump : Opcode} (h : (Cond.ofPredicate p).jump? = some jump)
    (x y : BitVec 32) : (Flags.ofSub x y).taken jump = some (p.holds x y) := by
  have hlt : _ = decide (x.toInt < y.toInt) := sign_ne_overflow x y
  have hge : ((Flags.ofSub x y).sign == (Flags.ofSub x y).overflow) =
      !decide (x.toInt < y.toInt) := by
    rw [← hlt, bne, Bool.not_not]
  cases p <;> cases h <;> simp only [Flags.taken, Predicate.holds, hlt, hge, zero_ofSub] <;>
    rw [Option.some.injEq, Bool.eq_iff_iff] <;>
    simp only [beq_iff_eq, bne_iff_ne, ne_eq, ← BitVec.toInt_inj, BitVec.slt_eq_decide,
      BitVec.sle_eq_decide, Bool.or_eq_true, Bool.and_eq_true, Bool.not_eq_true', decide_eq_true_eq,
      decide_eq_false_iff_not]
  all_goals omega

/-- A jump after a comparison in the other order happens exactly if the predicate holds. -/
theorem taken_ofSub_swap {p : Predicate} {jump : Opcode}
    (h : (Cond.ofPredicate p).swap.jump? = some jump) (x y : BitVec 32) :
    (Flags.ofSub y x).taken jump = some (p.holds x y) := by
  cases p
  case eq => rw [taken_ofSub (p := .eq) h, Predicate.holds, Predicate.holds, Bool.beq_comm]
  case ne => rw [taken_ofSub (p := .ne) h, Predicate.holds, Predicate.holds, bne_comm]
  case slt => exact taken_ofSub (p := .sgt) h _ _
  case sle => exact taken_ofSub (p := .sge) h _ _
  case sgt => exact taken_ofSub (p := .slt) h _ _
  case sge => exact taken_ofSub (p := .sle) h _ _
  all_goals cases h

/-- The flags decide a comparison of words, whichever operand is on the left. -/
theorem Compares.taken {src : Source} {inp : Inputs} {fr : Frame} {p : Predicate}
    {x y x' y' : ValueId} {jump : Opcode} {m n : Nat} (h : Compares p x y x' y' jump)
    (hw : src.isWord x = true) (hx : src.evalValue inp fr x' = some (.number m))
    (hy : src.evalValue inp fr y' = some (.number n)) :
    ∃ holds : Bool, src.compare inp fr p x y = some (.number holds.toNat) ∧
      (Flags.ofSub (BitVec.ofNat 32 m) (BitVec.ofNat 32 n)).taken jump = some holds := by
  cases h with
  | same h => exact ⟨_, Source.compare_of_isWord hw hx hy, taken_ofSub h _ _⟩
  | swapped h => exact ⟨_, Source.compare_of_isWord hw hy hx, taken_ofSub_swap h _ _⟩

end Codegen.X86
