import Codegen.TypeTable

/-!
# Where values live

A value lives in a register or in a stack slot. A register is a word of 64 bits: the low half is
the number of a virtual register, and the byte above it is the physical register to which it is
bound, if any. Slots and labels are numbers.

## Main definitions

* `Reg`: a register; `Reg.virtual` and `Reg.physical` make one.
* `RegTable`: the types of the virtual registers of a function.
* `SlotTable`: the stack slots of a function.
* `Label`: the label of a block.
-/

namespace Codegen

/-! ### Registers -/

/-- A register, virtual or bound to a physical one. -/
structure Reg where
  /-- The number in the low half, the physical register in the byte above. -/
  bits : UInt64
deriving DecidableEq, Repr

namespace Reg

/-- The mask of the low half. -/
def idMask : UInt64 := 0xffffffff

/-- The number that no register has. -/
def invalidId : Nat := 0x80000000

/-- The number of all registers that are physical from the start. No virtual register gets it. -/
def reservedId : Nat := 0x7fffffff

/-- The number of the register. -/
def id (r : Reg) : Nat := (r.bits &&& idMask).toNat

/-- The physical register to which the register is bound; `0` if it is not bound. -/
def real (r : Reg) : UInt8 := (r.bits >>> 32).toUInt8

/-- Whether the register is bound to a physical one. -/
def isReal (r : Reg) : Bool := r.real != 0

/-- Binds the register to a physical one. All bits above the number are replaced. -/
def bind (r : Reg) (real : UInt8) : Reg := ⟨(real.toUInt64 <<< 32) ||| (r.bits &&& idMask)⟩

/-- The register that stands for none. -/
def invalid : Reg := ⟨0x80000000⟩

/-- Whether the register stands for one. -/
def isValid (r : Reg) : Bool := r.id != invalidId

/-- The virtual register with a number. -/
def virtual (n : Nat) : Reg := ⟨UInt64.ofNat n⟩

/-- A register that is bound to a physical one from the start. -/
def physical (real : UInt8) : Reg := (virtual reservedId).bind real

/-- The text of a register, whether it is bound or not. -/
def text (r : Reg) : String :=
  if r.isValid then
    let id := r.id
    s!"r{id}?"
  else "invalid"

end Reg

/-- The class of registers that hold values of a type. -/
inductive RegClass where
  | invalid
  | int
deriving DecidableEq, Repr

/-- Integers and pointers are held in integer registers, and nothing else is. -/
def RegClass.ofType (types : TypeTable) (t : TypeId) : RegClass :=
  match types.kind t with
  | .int => .int
  | .pointer => .int
  | _ => .invalid

/-- The types of the virtual registers of a function, by their number. -/
structure RegTable where
  /-- The type of each register. -/
  types : Array TypeId := #[]
deriving DecidableEq, Repr

namespace RegTable

/-- Adds a register of a type. -/
def add (t : RegTable) (type : TypeId) : Except Fault (Reg × RegTable) :=
  if t.types.size < Reg.reservedId then
    .ok (Reg.virtual t.types.size, ⟨t.types.push type⟩)
  else .error .tooManyRegisters

/-- Whether a register is one of the table. -/
def has (t : RegTable) (r : Reg) : Bool := !r.isReal && r.id < t.types.size

/-- The type of a register; the invalid type if it is none of the table. -/
def type (t : RegTable) (r : Reg) : TypeId :=
  if r.isReal then TypeId.invalid
  else match t.types[r.id]? with
    | some type => type
    | none => TypeId.invalid

/-- Gives a register another type. -/
def setType (t : RegTable) (r : Reg) (type : TypeId) : Except Fault RegTable :=
  if r.id < t.types.size then .ok ⟨t.types.setIfInBounds r.id type⟩ else .error .outOfRange

end RegTable

/-! ### Stack slots -/

/-- The number of a stack slot in its function. -/
abbrev SlotId := Nat

/-- The text of a slot. -/
def SlotId.text (s : SlotId) : String := s!"slot{s}"

/-- A piece of the stack: a number of elements of a type. -/
structure Slot where
  /-- The type of an element. -/
  elem : TypeId
  /-- The number of elements. -/
  count : UInt64
deriving DecidableEq, Repr

/-- The stack slots of a function, by their number. -/
structure SlotTable where
  /-- The slots in the order in which they were added. -/
  slots : Array Slot := #[]
deriving DecidableEq, Repr

namespace SlotTable

/-- Adds a slot. -/
def add (t : SlotTable) (elem : TypeId) (count : UInt64) : SlotId × SlotTable :=
  (t.slots.size, ⟨t.slots.push ⟨elem, count⟩⟩)

/-- The slot with a number. -/
def get (t : SlotTable) (s : SlotId) : Except Fault Slot :=
  match t.slots[s]? with
  | some slot => .ok slot
  | none => .error .outOfRange

/-- Whether a slot is one of the table. -/
def has (t : SlotTable) (s : SlotId) : Bool := s < t.slots.size

/-- The number of bytes of a slot, modulo `2 ^ 64`. -/
def size (t : SlotTable) (types : TypeTable) (s : SlotId) : Except Fault UInt64 := do
  let slot ← t.get s
  return (← types.size slot.elem) * slot.count

end SlotTable

/-! ### Labels -/

/-- The label of a block. Labels of blocks start at one. -/
abbrev Label := Nat

/-- The text of a label. -/
def Label.text (l : Label) : String := s!"L{l}"

end Codegen
