import Codegen.X86.Compiler
import Codegen.Proofs.Semantics

/-!
# The meaning of machine instructions

A lowered function is run on virtual registers. A register holds a number of the width of its type;
moves, sums, differences and comparisons act on words of 32 bits. Control goes to a label by way of
the table of blocks and runs on from the first instruction of the block. The phis at the head of a
block read the operands that belong to the label from which control came, all of them before any
register is written.

## Main definitions

* `X86.Flags`, `X86.State`: the flags, and the state of the machine.
* `X86.exec`: the meaning of an instruction.
* `X86.runCode`: the meaning of a list of instructions, up to a jump or a return.
* `X86.Lowered.execBlock`: the meaning of a block.
* `X86.Lowered.run`: what a lowered function does within a number of blocks.
-/

namespace Codegen.X86

/-- The flags that conditional jumps read. -/
structure Flags where
  zero : Bool
  sign : Bool
  overflow : Bool
deriving DecidableEq, Repr

namespace Flags

/-- The flags after a sum. -/
def ofAdd (x y : BitVec 32) : Flags where
  zero := x + y == 0
  sign := (x + y).msb
  overflow := (x + y).toInt != x.toInt + y.toInt

/-- The flags after a difference or a comparison. -/
def ofSub (x y : BitVec 32) : Flags where
  zero := x - y == 0
  sign := (x - y).msb
  overflow := (x - y).toInt != x.toInt - y.toInt

/-- Whether a conditional jump happens. -/
def taken (fl : Flags) : Opcode → Option Bool
  | .je => some fl.zero
  | .jne => some !fl.zero
  | .jl => some (fl.sign != fl.overflow)
  | .jle => some (fl.zero || fl.sign != fl.overflow)
  | .jg => some (!fl.zero && fl.sign == fl.overflow)
  | .jge => some (fl.sign == fl.overflow)
  | _ => none

end Flags

/-- The state of the machine. -/
structure State where
  regs : Reg → Nat
  mem : Memory
  flags : Flags

/-- The number of bits of a register: a physical one has 32 or 64, any other has those of its type.
-/
def regWidth (types : TypeTable) (regs : RegTable) (r : Reg) : Nat :=
  if r.isReal then (if r.real ≤ 8 then 32 else 64) else types.width (regs.type r)

/-- The width of a register is that of the value that lives in it. -/
theorem regWidth_regOf {src : Source} {c : Context} (hc : Context.Ready src.func c) {v : ValueId}
    (hv : src.func.InRegister v) :
    regWidth src.types c.regs (src.func.regOf v) = src.widthOf v := by
  rw [regWidth, hc.isReal_regOf hv, Source.widthOf_eq (hc.type_regOf hv)]
  rfl

namespace State

variable (s : State)

/-- Writes a register of a width. -/
def write (width : Reg → Nat) (r : Reg) (n : Nat) : State :=
  { s with regs := fun q => if q = r then (BitVec.ofNat (width r) n).toNat else s.regs q }

@[simp] theorem mem_write (width : Reg → Nat) (r : Reg) (n : Nat) :
    (s.write width r n).mem = s.mem := rfl

theorem regs_write (width : Reg → Nat) (r q : Reg) (n : Nat) :
    (s.write width r n).regs q = if q = r then (BitVec.ofNat (width r) n).toNat else s.regs q := rfl

/-- Writes several registers. -/
def writeAll (ns : List (Reg × Nat)) : State :=
  { s with regs := fun q => (ns.lookup q).getD (s.regs q) }

/-- Writes a slot. -/
def store (m : SlotId) (x : BitVec 32) : State := { s with mem := s.mem.set m x }

/-- The low word of a register. -/
def word (r : Reg) : BitVec 32 := BitVec.ofNat 32 (s.regs r)

/-- A word that is written to a register of 32 bits is found there. -/
theorem word_write_self {width : Reg → Nat} {r : Reg} (h : width r = 32) (x : BitVec 32) :
    (s.write width r x.toNat).word r = x := by
  rw [word, regs_write, if_pos rfl, h]
  simp only [BitVec.ofNat_toNat, BitVec.setWidth_eq]

/-- The word of an operand that is a register or an immediate. -/
def operandWord : Operand → Option (BitVec 32)
  | .reg r => some (s.word r)
  | .imm32 v => some v.toBitVec
  | _ => none

/-- The number of an operand, extended to a width. -/
def operandNumber (w : Nat) : Operand → Option Nat
  | .reg r => some (BitVec.ofNat w (s.regs r)).toNat
  | .imm32 v => some (BitVec.ofInt w v.toInt).toNat
  | _ => none

theorem operandNumber_lt {w n : Nat} {o : Operand} (h : s.operandNumber w o = some n) :
    n < 2 ^ w := by
  unfold operandNumber at h
  split at h
  · exact Option.some.inj h ▸ BitVec.isLt _
  · exact Option.some.inj h ▸ BitVec.isLt _
  · cases h

end State

/-! ### Instructions -/

/-- The meaning of an instruction that is no phi: whether and how it leaves the block, and the state
after it. -/
def exec (width : Reg → Nat) (ins : Instr) (s : State) : Option (Option (Exit Label) × State) :=
  match ins.op, ins.operands.map Prod.snd with
  | .movri32, [.reg r, .imm32 v] => some (none, s.write width r v.toBitVec.toNat)
  | .movrr32, [.reg r, .reg q] => some (none, s.write width r (s.word q).toNat)
  | .movrm32, [.reg r, .slot m] => some (none, s.write width r (s.mem m).toNat)
  | .movmr32, [.slot m, .reg r] => some (none, s.store m (s.word r))
  | .movmi32, [.slot m, .imm32 v] => some (none, s.store m v.toBitVec)
  | .addrr32, [.reg r, o] | .addri32, [.reg r, o] => do
    let x ← s.operandWord o
    let s' := s.write width r (s.word r + x).toNat
    return (none, { s' with flags := .ofAdd (s.word r) x })
  | .subrr32, [.reg r, o] | .subri32, [.reg r, o] => do
    let x ← s.operandWord o
    let s' := s.write width r (s.word r - x).toNat
    return (none, { s' with flags := .ofSub (s.word r) x })
  | .cmprr32, [.reg r, o] | .cmpri32, [.reg r, o] => do
    let x ← s.operandWord o
    return (none, { s with flags := .ofSub (s.word r) x })
  | .jmp, [.label l] => some (some (.goto l), s)
  | .ret, [] => some (some (.returned (s.word eax)), s)
  | op, [.label l] => do
    let taken ← s.flags.taken op
    return (if taken then some (.goto l) else none, s)
  | _, _ => none

/-- The instructions of a block behind its phis, up to the first one that leaves the block. -/
def runCode (width : Reg → Nat) : List Instr → State → Option (Exit Label × State)
  | [], _ => none
  | ins :: rest, s =>
    match exec width ins s with
    | some (none, s) => runCode width rest s
    | some (some e, s) => some (e, s)
    | none => none

/-! ### Phis -/

/-- The operand of a phi that belongs to a label. -/
def incomingOf (l : Label) : List Operand → Option Operand
  | v :: .label l' :: rest => if l' = l then some v else incomingOf l rest
  | _ => none

/-- The register that a phi writes, and the number that it gets when control comes from a label. -/
def phiInput (width : Reg → Nat) (prev : Option Label) (s : State) (ins : Instr) :
    Option (Reg × Nat) :=
  match ins.operands.map Prod.snd, prev with
  | .reg r :: operands, some l => do
    let o ← incomingOf l operands
    return (r, ← s.operandNumber (width r) o)
  | _, _ => none

theorem phiInput_none {width : Reg → Nat} {s : State} {ins : Instr} :
    phiInput width none s ins = none := by
  unfold phiInput
  split
  · next h => cases h
  · rfl

/-- The phis at the head of a block. They read their operands before any register is written. -/
def execPhis (width : Reg → Nat) (prev : Option Label) (phis : List Instr) (s : State) :
    Option State :=
  (phis.mapM (phiInput width prev s)).map s.writeAll

/-- Whether an instruction is a phi. -/
def Instr.isPhi (ins : Instr) : Bool := ins.op == .phi

/-! ### Lowered functions -/

namespace Lowered

variable (types : TypeTable) (code : Lowered)

/-- The number of bits of a register. -/
def width (r : Reg) : Nat := regWidth types code.regs r

/-- The meaning of the block with a label when control comes from `prev`, or when the function
starts. -/
def execBlock (l : Label) (prev : Option Label) (s : State) : Option (Exit Label × State) :=
  match code.blocks.find? (·.label == l) with
  | none => none
  | some range =>
    let instrs := code.instrs.toList.drop range.start
    (execPhis (code.width types) prev (instrs.takeWhile Instr.isPhi) s).bind
      (runCode (code.width types) (instrs.dropWhile Instr.isPhi))

/-- The run of one block. -/
def step (p : Position Label State) : Option (Position Label State ⊕ Outcome) :=
  match code.execBlock types p.block p.prev p.state with
  | some (.goto l, s) => some (.inl ⟨l, some p.block, s⟩)
  | some (.returned x, s) => some (.inr (x, s.mem))
  | none => none

/-- What a lowered function does within `n` blocks from the first one on. -/
def run (s : State) (n : Nat) : Option (Position Label State ⊕ Outcome) :=
  match code.blocks.head? with
  | none => none
  | some range => runSteps (code.step types) n ⟨range.label, none, s⟩

end Lowered

end Codegen.X86
