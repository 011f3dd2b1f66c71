import Codegen.Instr
import Codegen.Storage

/-!
# Machine instructions

The instructions of x86-64 that lowering produces, on virtual registers, together with a pseudo
instruction for phis. An operation fixes the number of its operands, the kinds of operand that it
takes at each position and the role of each position; `Instr.make` enforces all three.

## Main definitions

* `X86.Opcode`, `X86.Opcode.specs`: the operations and the table of their operands.
* `X86.Operand`, `X86.Role`: operands and what an instruction does with them.
* `X86.Instr`, `X86.Instr.make`: instructions.
* `X86.prologue`, `X86.epilogue`: the instructions around the body of a function.
-/

namespace Codegen.X86

/-! ### Physical registers -/

/-- The names of the physical registers, numbered from one. The two widths of a register count as
two. -/
def registerNames : List String :=
  ["eax", "ecx", "edx", "ebx", "esp", "ebp", "esi", "edi",
    "rax", "rcx", "rdx", "rbx", "rsp", "rbp", "rsi", "rdi"]

/-- The name of the physical register with a number. -/
def registerName : Nat → String
  | 0 => "invalid"
  | n + 1 => registerNames[n]?.getD "invalid"

/-- The register of results. -/
def eax : Reg := Reg.physical 1

/-- The stack pointer. -/
def rsp : Reg := Reg.physical 13

/-- The frame pointer. -/
def rbp : Reg := Reg.physical 14

/-- The text of a register: a physical one by its name. -/
def regText (r : Reg) : String :=
  if r.isReal then registerName r.real.toNat else r.text

/-! ### Operands -/

/-- What an instruction does with an operand. -/
inductive Role where
  | input
  | output
  | inputOutput
deriving DecidableEq, Repr

namespace Role

/-- The name of a role. -/
def name : Role → String
  | input => "in"
  | output => "out"
  | inputOutput => "inout"

/-- The name of the role with a number; the low bit stands for reading and the next for writing. -/
def numberedName : Nat → String
  | 1 => input.name
  | 2 => output.name
  | 3 => inputOutput.name
  | _ => "invalid"

/-- Whether the operand is read. -/
def reads : Role → Bool
  | output => false
  | _ => true

/-- Whether the operand is written. -/
def writes : Role → Bool
  | input => false
  | _ => true

end Role

/-- The kind of an operand. -/
inductive OperandKind where
  | invalid
  | reg
  | imm32
  | slot
  | label
deriving DecidableEq, Repr

namespace OperandKind

/-- The name of a kind. -/
def name : OperandKind → String
  | invalid => "invalid"
  | reg => "reg"
  | imm32 => "imm32"
  | slot => "slot"
  | label => "label"

/-- The kind with a number, counted in the order of declaration; any other number is invalid. -/
def numbered : Nat → OperandKind
  | 1 => reg
  | 2 => imm32
  | 3 => slot
  | 4 => label
  | _ => invalid

end OperandKind

/-- An operand. No instruction takes the empty one. -/
inductive Operand where
  | empty
  | reg (r : Reg)
  | imm32 (v : Int32)
  | slot (s : SlotId)
  | label (l : Label)
deriving DecidableEq, Repr

namespace Operand

/-- The kind of an operand. -/
def kind : Operand → OperandKind
  | empty => .invalid
  | reg _ => .reg
  | imm32 _ => .imm32
  | slot _ => .slot
  | label _ => .label

/-- The text of an operand. -/
def text : Operand → String
  | empty => "invalid"
  | reg r => regText r
  | imm32 v => toString v.toInt
  | slot s => "dword ptr [" ++ SlotId.text s ++ "]"
  | label l => Label.text l

end Operand

/-! ### Operations -/

/-- The name of a machine operation. The suffix gives the form of the operands (`r` register, `i`
immediate, `m` memory) and their width. -/
inductive Opcode where
  | phi
  | movri32
  | movrr32
  | movrr64
  | movrm32
  | movmr32
  | movmi32
  | addrr32
  | addri32
  | subrr32
  | subri32
  | cmprr32
  | cmpri32
  | jmp
  | je
  | jne
  | jl
  | jle
  | jg
  | jge
  | push64
  | pop64
  | ret
deriving DecidableEq, Repr

/-- What an operation demands of the operand at a position. -/
structure OperandSpec where
  /-- What is done with the operand. -/
  role : Role
  /-- The kinds that are taken. -/
  kinds : List OperandKind
deriving DecidableEq, Repr

namespace Opcode

/-- The machine operations in the order of their numbers, which start at one. -/
def all : List Opcode :=
  [phi, movri32, movrr32, movrr64, movrm32, movmr32, movmi32, addrr32, addri32, subrr32, subri32,
    cmprr32, cmpri32, jmp, je, jne, jl, jle, jg, jge, push64, pop64, ret]

/-- The text of a machine operation. -/
def name : Opcode → String
  | phi => "PHI"
  | movri32 => "MOVri32"
  | movrr32 => "MOVrr32"
  | movrr64 => "MOVrr64"
  | movrm32 => "MOVrm32"
  | movmr32 => "MOVmr32"
  | movmi32 => "MOVmi32"
  | addrr32 => "ADDrr32"
  | addri32 => "ADDri32"
  | subrr32 => "SUBrr32"
  | subri32 => "SUBri32"
  | cmprr32 => "CMPrr32"
  | cmpri32 => "CMPri32"
  | jmp => "JMP"
  | je => "JE"
  | jne => "JNE"
  | jl => "JL"
  | jle => "JLE"
  | jg => "JG"
  | jge => "JGE"
  | push64 => "PUSH64"
  | pop64 => "POP64"
  | ret => "RET"

/-- The name that the assembler knows. -/
def mnemonic : Opcode → String
  | phi => "phi"
  | movri32 | movrr32 | movrr64 | movrm32 | movmr32 | movmi32 => "mov"
  | addrr32 | addri32 => "add"
  | subrr32 | subri32 => "sub"
  | cmprr32 | cmpri32 => "cmp"
  | jmp => "jmp"
  | je => "je"
  | jne => "jne"
  | jl => "jl"
  | jle => "jle"
  | jg => "jg"
  | jge => "jge"
  | push64 => "push"
  | pop64 => "pop"
  | ret => "ret"

/-- The machine operation with a number, if there is one. -/
def numbered? : Nat → Option Opcode
  | 0 => none
  | n + 1 => all[n]?

/-- The text of the machine operation with a number. -/
def numberedName (n : Nat) : String :=
  match numbered? n with
  | some op => op.name
  | none => s!"invalid({n})"

/-- The assembler name of the machine operation with a number. Number zero has an empty one. -/
def numberedMnemonic (n : Nat) : Except Fault String :=
  match numbered? n with
  | some op => .ok op.mnemonic
  | none => if n = 0 then .ok "" else .error .outOfRange

/-- The text of a machine operation that may be missing. -/
def optionName : Option Opcode → String
  | some op => op.name
  | none => numberedName 0

/-- What an operation demands of its operands. Storing writes a slot and loading reads one. -/
def specs : Opcode → List OperandSpec
  | phi => [⟨.output, [.reg]⟩, ⟨.input, [.reg, .imm32]⟩, ⟨.input, [.label]⟩]
  | movri32 => [⟨.output, [.reg]⟩, ⟨.input, [.imm32]⟩]
  | movrr32 | movrr64 => [⟨.output, [.reg]⟩, ⟨.input, [.reg]⟩]
  | movrm32 => [⟨.output, [.reg]⟩, ⟨.input, [.slot]⟩]
  | movmr32 => [⟨.output, [.slot]⟩, ⟨.input, [.reg]⟩]
  | movmi32 => [⟨.output, [.slot]⟩, ⟨.input, [.imm32]⟩]
  | addrr32 | subrr32 => [⟨.inputOutput, [.reg]⟩, ⟨.input, [.reg]⟩]
  | addri32 | subri32 => [⟨.inputOutput, [.reg]⟩, ⟨.input, [.imm32]⟩]
  | cmprr32 => [⟨.input, [.reg]⟩, ⟨.input, [.reg]⟩]
  | cmpri32 => [⟨.input, [.reg]⟩, ⟨.input, [.imm32]⟩]
  | jmp | je | jne | jl | jle | jg | jge => [⟨.input, [.label]⟩]
  | push64 => [⟨.input, [.reg]⟩]
  | pop64 => [⟨.output, [.reg]⟩]
  | ret => []

/-- Whether the last two operands can be repeated. -/
def variadic : Opcode → Bool
  | phi => true
  | _ => false

/-- What an operation demands of the operand at a position. -/
def specAt (op : Opcode) (i : Nat) : Option OperandSpec :=
  let n := op.specs.length
  if i < n then op.specs[i]?
  else if op.variadic then op.specs[n - 2 + (i - n) % 2]?
  else none

/-- Whether an operation takes a number of operands. -/
def takes (op : Opcode) (n : Nat) : Bool :=
  let m := op.specs.length
  if op.variadic then m ≤ n && (n - m) % 2 == 0 else n == m

/-- Whether the operation goes to a label. -/
def isBranch : Opcode → Bool
  | jmp | je | jne | jl | jle | jg | jge => true
  | _ => false

end Opcode

/-! ### Instructions -/

/-- A machine instruction. -/
structure Instr where
  /-- The operation. -/
  op : Opcode
  /-- The operands with their roles. -/
  operands : List (Role × Operand)
deriving DecidableEq, Repr

namespace Instr

/-- Gives the operands from position `i` on their roles. -/
def withRoles (op : Opcode) : Nat → List Operand → Except Fault (List (Role × Operand))
  | _, [] => .ok []
  | i, o :: os =>
    match op.specAt i with
    | none => .error (.operandKind i op.name o.kind.name)
    | some spec =>
      if o.kind ∈ spec.kinds then do
        return (spec.role, o) :: (← withRoles op (i + 1) os)
      else .error (.operandKind i op.name o.kind.name)

/-- The instruction with an operation and operands. -/
def make (op : Opcode) (operands : List Operand) : Except Fault Instr := do
  if !op.takes operands.length then
    throw (.operandCount op.name op.specs.length operands.length)
  return ⟨op, ← withRoles op 0 operands⟩

/-- The instruction whose operation has a number. -/
def makeNumbered (n : Nat) (operands : List Operand) : Except Fault Instr :=
  match Opcode.numbered? n with
  | some op => make op operands
  | none => .error (.noSuchMachineOp n)

/-- The registers among the operands whose role satisfies a condition. -/
def regs (i : Instr) (p : Role → Bool) : List Reg :=
  i.operands.filterMap fun
    | (role, .reg r) => if p role then some r else none
    | _ => none

/-- The registers that the instruction reads. -/
def uses (i : Instr) : List Reg := i.regs Role.reads

/-- The registers that the instruction writes. -/
def defs (i : Instr) : List Reg := i.regs Role.writes

/-- Whether the instruction goes to a label. -/
def isBranch (i : Instr) : Bool := i.op.isBranch

/-- The text of the incoming values of a phi. -/
def incomingText : List (Role × Operand) → String
  | v :: l :: rest => ", [" ++ v.2.text ++ ", " ++ l.2.text ++ "]" ++ incomingText rest
  | _ => ""

/-- The text of an instruction. -/
def text (i : Instr) : String :=
  match i.op, i.operands with
  | .ret, _ => "ret"
  | .phi, out :: rest => "phi " ++ out.2.text ++ incomingText rest
  | op, os => op.mnemonic ++ " " ++ ", ".intercalate (os.map (·.2.text))

end Instr

/-! ### The frame of a function -/

/-- The instructions that set up the frame pointer. -/
def prologue : Except Fault (List Instr) := do
  return [← Instr.make .push64 [.reg rbp], ← Instr.make .movrr64 [.reg rbp, .reg rsp]]

/-- The instructions that restore the frame pointer. -/
def epilogue : Except Fault (List Instr) := do
  return [← Instr.make .movrr64 [.reg rsp, .reg rbp], ← Instr.make .pop64 [.reg rbp]]

end Codegen.X86
