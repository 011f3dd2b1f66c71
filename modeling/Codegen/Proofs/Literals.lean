import Codegen.Proofs.Complaints
import Codegen.Proofs.Immediates

/-!
# Literals

A number in a text can have any size. Importing it keeps its low 64 bits, and an immediate has 32
bits. A constant of at most 32 bits is cut again, and a wider one has to fit. What the code holds is
therefore congruent to the number that was written, modulo the numbers of its type, as long as the
type has at most 64 bits. A wider number is not refused: it is cut to 64 bits as well.

## Main definitions

* `X86.Carries`: the operands that stand for a number of some bits.
* `X86.Literal`: the values that stand for a constant of a module.
* `X86.CodeCarries`: a number wherever the code reads a value.

## Main results

* `payload_modEq`, `X86.imm32_modEq`: what is kept of a number.
* `X86.literals_of_import`: the numbers in the code of an imported function.
-/

namespace Codegen

/-- The low 64 bits of a number are congruent to it. -/
theorem payload_modEq (x : Int) {n : Nat} (hn : n ≤ 64) :
    (Int64.ofInt x).toInt ≡ x [ZMOD 2 ^ n] := by
  have hword : (Int64.ofInt x).toInt ≡ x [ZMOD 2 ^ 64] := by
    rw [Int64.toInt_ofInt, Int.ModEq]
    exact Int.bmod_emod
  exact hword.of_dvd (pow_dvd_pow 2 hn)

namespace X86

/-- An immediate is congruent to its constant at the width of the constant. -/
theorem imm32_modEq {payload : Int64} {w : Nat} {k : Int32} (h : imm32? payload w = some k) :
    k.toInt ≡ payload.toInt [ZMOD 2 ^ w] := by
  have hbits := congrArg BitVec.toNat (ofInt_imm32 h)
  rw [BitVec.toNat_ofInt, BitVec.toNat_ofInt] at hbits
  have hpos : (0 : Int) < 2 ^ w := by positivity
  have hk := Int.emod_nonneg k.toInt (Int.ne_of_gt hpos)
  have hp := Int.emod_nonneg payload.toInt (Int.ne_of_gt hpos)
  rw [Int.ModEq]
  push_cast at hbits
  omega

/-- An immediate of a wide constant is the constant. -/
theorem imm32_eq {payload : Int64} {w : Nat} {k : Int32} (h : imm32? payload w = some k)
    (hw : 32 < w) : k.toInt = payload.toInt := by
  unfold imm32? at h
  rw [if_neg (by omega)] at h
  split at h
  · cases h
  · obtain rfl := Option.some.inj h
    rw [Int64.toInt_toInt32, Int.bmod_eq_of_le (by omega) (by omega)]

/-- An immediate that stands for a number of some bits: the two are congruent, and a wide number is
cut to 64 bits only. -/
def Carries (x : Int) (w : Nat) (o : Operand) : Prop :=
  ∃ k, o = .imm32 k ∧ k.toInt ≡ x [ZMOD 2 ^ min w 64] ∧
    (32 < w → k.toInt = (Int64.ofInt x).toInt)

variable {src : Source} {v : ValueId}

/-- A constant is used as an immediate and in no other way. -/
theorem Rendered.carries (hn : src.func.Naming) {x : Int} {w : Nat} {id : TypeId} {o : Operand}
    (hv : src.func.values[v]? = some (.const (Int64.ofInt x) id))
    (hw : src.types.intBits id = .ok w) (h : Rendered src v o) : Carries x w o := by
  cases h with
  | reg hreg =>
    rcases hreg.cases hn with ⟨n, t, ht⟩ | ⟨j, ins, -, hins, -, rfl⟩
    · cases hv.symm.trans ht
    · cases hv.symm.trans (hn.result_value hins)
  | slot hj => cases hv.symm.trans hj
  | imm hx hk =>
    cases hx with
    | loose hj => cases hv.symm.trans hj
    | const hconst hbits =>
      cases hv.symm.trans hconst
      cases hw.symm.trans hbits
      refine ⟨_, rfl, ?_, imm32_eq hk⟩
      have hcut := (imm32_modEq hk).of_dvd (pow_dvd_pow 2 (Nat.min_le_left w 64))
      exact hcut.trans (payload_modEq x (Nat.min_le_right w 64))

/-! ### Imported functions -/

/-- A value stands for a constant of a module: it has the low 64 bits of the number and the width of
its type. -/
structure Literal (m : Llvm.Module) (src : Source) (c : Llvm.Const) (v : ValueId) (x : Int)
    (w : Nat) : Prop where
  value : c.value? = some x
  width : ∃ bits, m.types.resolve c.type = .int bits ∧ (bits < 2 ^ 63 → w = bits)
  const : ∃ id, src.func.values[v]? = some (.const (Int64.ofInt x) id) ∧
    src.types.intBits id = .ok w
  congr : (Int64.ofInt x).toInt ≡ x [ZMOD 2 ^ min w 64]

/-- In the code of a function, every operand that stands for a value carries a number. -/
def CodeCarries (f : Func) (v : ValueId) (x : Int) (w : Nat) (code : List Instr) : Prop :=
  ∃ codes, code = codes.flatten ∧ List.Forall₂ (fun i is => ∃ b op vs, f.blockOf i = some b ∧
    f.opOf i = some op ∧ Feeds f b op vs ∧
      List.Forall₂ (fun u o => u = v → Carries x w o) vs (is.flatMap Instr.sources))
    f.inserted codes

theorem Literal.eq_of_int {m : Llvm.Module} {t : Llvm.TypeExpr} {x y : Int} {bits w : Nat}
    (h : Literal m src (.int t y) v x w) (ht : m.types.resolve t = .int bits)
    (hlt : bits < 2 ^ 63) : y = x ∧ bits = w := by
  obtain ⟨bits', hbits, hw⟩ := h.width
  cases ht.symm.trans hbits
  exact ⟨Option.some.inj h.value, (hw hlt).symm⟩

theorem width_of_lt {bits : Nat} (h : bits < 2 ^ 63) : (Int64.ofNat bits).toInt.toNat = bits := by
  rw [Int64.toInt_ofNat_of_lt h, Int.toNat_natCast]

theorem literal_of_operandImage {m : Llvm.Module} {scope : Llvm.Scope} {types : TypeTable}
    {f : Func} {c : Llvm.Const} (h : Llvm.OperandImage m scope ⟨types, f⟩ (.const c) v) :
    ∃ x w, Literal m ⟨types, f⟩ c v x w := by
  cases h with
  | @const _ x bits id _ hx hbits ht hv =>
    refine ⟨x, (Int64.ofNat bits).toInt.toNat, hx, ⟨bits, hbits, width_of_lt⟩, ⟨id, hv, ?_⟩,
      payload_modEq x (Nat.min_le_right _ 64)⟩
    have hid : types.get? id = some (.int (Int64.ofNat bits).toInt.toNat) := by
      cases ht with
      | int ht hid =>
        cases hbits.symm.trans ht
        exact hid
      | void ht | unknownPointer ht | pointer ht | array ht | function ht =>
        cases hbits.symm.trans ht
    simp [TypeTable.intBits, TypeTable.get, hid, bind, Except.bind, pure, Except.pure]

/-- What is lowered carries the number of every constant. -/
theorem Literal.codeCarries {m : Llvm.Module} {c : Llvm.Const} {x : Int} {w : Nat}
    (h : Literal m src c v x w) (hf : src.func.Built) {s s' : Compiler} {code : Lowered}
    (hcompile : Compiler.compile src s = .ok code s') :
    CodeCarries src.func v x w code.instrs.toList := by
  have hcon := hf.consistent.coherent
  obtain ⟨id, hv, hw⟩ := h.const
  obtain ⟨codes, hflatten, hcodes⟩ := exists_codes_of_compile hcon hcompile
  refine ⟨codes, hflatten, hcodes.imp ?_⟩
  rintro i is ⟨b, op, hb, hop, vs, hvs, hrendered⟩
  refine ⟨b, op, vs, hb, hop, hvs, hrendered.imp ?_⟩
  rintro u o ho rfl
  exact ho.carries hcon.toNaming hv hw

/-- Every constant operand of an imported function is a number of an integer type. The operation
that stands for the instruction reads a constant with its low 64 bits, which is congruent to it
modulo the numbers of its type, or modulo `2 ^ 64` if the type is wider. If the function is lowered,
the constant is an immediate wherever it is read, and the immediate is congruent to the number too;
a constant of more than 32 bits is not cut any further, so that lowering stops if it does not
fit. -/
theorem literals_of_import {m : Llvm.Module} {name : String} {out : Module}
    (h : Llvm.importModule m name = .ok out) {n : Nat} {f : Llvm.Func} {g : Func}
    (hf : m.funcs[n]? = some f) (hg : out.funcs[n]? = some g) {b k j : Nat} {blk : Llvm.Block}
    {source : Llvm.InstOp ⊕ Llvm.Terminator} {c : Llvm.Const} (hblk : f.blocks[b]? = some blk)
    (hsource : blk.sources[k]? = some source)
    (hc : (Llvm.sourceOperands source)[j]? = some (.const c)) :
    ∃ i op v x w, (g.instrsOf b)[k]? = some i ∧ g.opOf i = some op ∧ op.args[j]? = some v ∧
      Literal m ⟨out.types, g⟩ c v x w ∧
      ∀ (s s' : Compiler) (code : Lowered), Compiler.compile ⟨out.types, g⟩ s = .ok code s' →
        CodeCarries g v x w code.instrs.toList := by
  obtain ⟨g', hg', himage⟩ := exists_getElem?_of_forall₂ (Llvm.importModule_eq_ok h) hf
  rw [Array.getElem?_toList] at hg'
  cases hg.symm.trans hg'
  obtain ⟨gb, hgb, hblock⟩ := exists_getElem?_of_forall₂ himage.blocks hblk
  obtain ⟨i, hi, op, hop, hsource⟩ := exists_getElem?_of_forall₂ hblock.code hsource
  obtain ⟨v, hv, hoperand⟩ := exists_getElem?_of_forall₂ hsource.operands hc
  obtain ⟨x, w, hliteral⟩ := literal_of_operandImage hoperand
  rw [Array.getElem?_toList] at hgb
  rw [← Func.instrs_eq_instrsOf hgb] at hi
  exact ⟨i, op, v, x, w, hi, hop, hv, hliteral, fun s s' code hcompile =>
    hliteral.codeCarries himage.built hcompile⟩

/-- A function with a phi of 128 bits, and a sum with the largest number of 32 bits. -/
def wideLiteral : Llvm.Module where
  funcs := [{
    name := Llvm.sampleName "f"
    result := .int 32
    params := [⟨.int 32, Llvm.sampleName "a"⟩]
    variadic := false
    blocks := [
      { name := Llvm.sampleName "entry"
        insts := []
        term := some (.br (.block (Llvm.sampleName "next"))) },
      { name := Llvm.sampleName "next"
        insts := [
          ⟨Llvm.sampleName "p", .phi (.int 128)
            [(.const (.int (.int 128) 18446744073709551616), Llvm.sampleName "entry")]⟩,
          ⟨Llvm.sampleName "s", .binary .add (.int 32) (Llvm.sampleOperand "a")
            (.const (.int (.int 32) 4294967295))⟩]
        term := some (.ret (Llvm.sampleOperand "s")) }] }]

/-- The phi gets zero, which is not congruent to its number, and the sum gets minus one, which is
congruent to its number. -/
theorem literals_of_import_wide :
    ¬(Int64.ofInt 18446744073709551616).toInt ≡ 18446744073709551616 [ZMOD 2 ^ 128] ∧
    ∃ out g s' code v v', Llvm.importModule wideLiteral "t" = .ok out ∧ out.funcs[0]? = some g ∧
      Compiler.compile ⟨out.types, g⟩ {} = .ok code s' ∧
      code.instrs.toList.flatMap Instr.sources =
        [.imm32 0, .reg (g.regOf 1), .imm32 (-1), .reg (g.regOf 4)] ∧
      (Literal wideLiteral ⟨out.types, g⟩ (.int (.int 128) 18446744073709551616) v
          18446744073709551616 128 ∧
        CodeCarries g v 18446744073709551616 128 code.instrs.toList) ∧
      Literal wideLiteral ⟨out.types, g⟩ (.int (.int 32) 4294967295) v' 4294967295 32 ∧
        CodeCarries g v' 4294967295 32 code.instrs.toList := by
  have hrun : (Llvm.importModule wideLiteral "t").toOption.any (fun out =>
      out.funcs[0]?.any fun g => EStateM.gives (fun code =>
        code.instrs.toList.flatMap Instr.sources =
          [.imm32 0, .reg (g.regOf 1), .imm32 (-1), .reg (g.regOf 4)])
        (Compiler.compile ⟨out.types, g⟩ {})) = true := by
    decide +kernel
  obtain ⟨out, hout, hrun⟩ := (Option.any_eq_true _ _).1 hrun
  obtain ⟨g, hg, hrun⟩ := (Option.any_eq_true _ _).1 hrun
  obtain ⟨code, s', hcompile, hsources⟩ := EStateM.eq_ok_of_gives hrun
  have himport := Except.eq_ok_of_toOption hout
  obtain ⟨-, -, v, x, w, -, -, -, hphi, hphiCode⟩ :=
    literals_of_import (n := 0) (b := 1) (k := 0) (j := 0) himport rfl hg rfl rfl rfl
  obtain ⟨-, -, v', x', w', -, -, -, hsum, hsumCode⟩ :=
    literals_of_import (n := 0) (b := 1) (k := 1) (j := 1) himport rfl hg rfl rfl rfl
  have hphiCode := hphiCode {} s' code hcompile
  have hsumCode := hsumCode {} s' code hcompile
  obtain ⟨rfl, rfl⟩ := hphi.eq_of_int rfl (by decide)
  obtain ⟨rfl, rfl⟩ := hsum.eq_of_int rfl (by decide)
  exact ⟨by decide, out, g, s', code, v, v', himport, hg, hcompile, of_decide_eq_true hsources,
    ⟨hphi, hphiCode⟩, hsum, hsumCode⟩

end X86

end Codegen
