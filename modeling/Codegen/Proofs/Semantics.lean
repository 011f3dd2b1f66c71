import Codegen.Source
import Codegen.Proofs.Assignment

/-!
# The meaning of functions

A function is run block by block. A value of an integer type is a number below a power of two, and
arithmetic wraps around; the result of an instruction that reserves a piece of the stack is the
address of its slot, the same one every time. The phis at the head of a block read the values that
belong to the block from which control came, all of them before any is written. Slots hold words of
32 bits, and only such words are read and written.

Instructions that are never lowered have no meaning here, and neither has a run that reads a value
before it is defined. Such a run is stuck.

## Main definitions

* `Datum`, `Memory`, `Frame`: values, the contents of the slots, and what a run knows.
* `Source.evalValue`: the meaning of a value.
* `Source.execOp`, `Source.exitOf`, `Source.execBlock`: the meaning of operations and blocks.
* `runSteps`: runs of a number of steps.
* `Source.run`: what a function does within a number of blocks.
-/

namespace Codegen

/-- The number of bits of the values of a type. -/
def TypeTable.width (types : TypeTable) (t : TypeId) : Nat :=
  match types.get? t with
  | some (.int bits) => bits
  | some (.pointer _) => 64
  | _ => 0

theorem TypeTable.width_of_isInt {types : TypeTable} {t : TypeId} {w : Nat}
    (h : types.isInt t w = true) : types.width t = w := by
  unfold isInt at h
  unfold width
  split at h
  · next b hb =>
    simp only [hb]
    exact Int.ofNat.inj (beq_iff_eq.1 h)
  · cases h

theorem TypeTable.width_of_intBits {types : TypeTable} {t : TypeId} {w : Nat}
    (h : types.intBits t = .ok w) : types.width t = w := by
  unfold intBits get at h
  unfold width
  cases hget : types.get? t with
  | none => simp [hget, bind, Except.bind] at h
  | some ty => cases ty <;> simp_all [bind, Except.bind, pure, Except.pure, Except.throw_ne_ok]

/-! ### Lists of results -/

section Lookup

variable {α κ β : Type} [BEq κ] [LawfulBEq κ] {key : α → κ} {val : α → β} {l : List α}

theorem lookup_map_of_mem {a : α} (ha : a ∈ l) (hinj : ∀ c ∈ l, key c = key a → c = a) :
    (l.map fun a => (key a, val a)).lookup (key a) = some (val a) := by
  induction l with
  | nil => cases ha
  | cons c l ih =>
    obtain ⟨hc, hinj⟩ := List.forall_mem_cons.1 hinj
    rw [List.map_cons, List.lookup_cons]
    by_cases hk : key a = key c
    · rw [hk, beq_self_eq_true, hc hk.symm]
    · rw [beq_false_of_ne hk]
      exact ih ((List.mem_cons.1 ha).resolve_left fun he => hk (by rw [he])) hinj

theorem lookup_map_eq_none {q : κ} (h : ∀ a ∈ l, key a ≠ q) :
    (l.map fun a => (key a, val a)).lookup q = none := by
  rw [List.lookup_eq_none_iff]
  intro p hp
  obtain ⟨a, ha, rfl⟩ := List.mem_map.1 hp
  exact bne_iff_ne.2 (h a ha).symm

end Lookup

theorem mapM_eq_some_map {α β : Type} {f : α → Option β} {g : α → β} {l : List α}
    (h : ∀ a ∈ l, f a = some (g a)) : l.mapM f = some (l.map g) := by
  induction l with
  | nil => rfl
  | cons a l ih =>
    obtain ⟨ha, h⟩ := List.forall_mem_cons.1 h
    simp [List.mapM_cons, ha, ih h]

/-! ### What is known during a run -/

/-- What a value is while a function runs. -/
inductive Datum where
  /-- A number of the width of its type. -/
  | number (n : Nat)
  /-- The address of a slot. -/
  | address (s : SlotId)
deriving DecidableEq, Repr

/-- The contents of the slots. -/
abbrev Memory := SlotId → BitVec 32

/-- Changes the contents of a slot. -/
def Memory.set (m : Memory) (s : SlotId) (x : BitVec 32) : Memory :=
  fun r => if r = s then x else m r

/-- What a run is given: the arguments, of which the bits beyond their width do not count, and the
addresses of the slots as numbers, which only comparisons can see. -/
structure Inputs where
  args : Nat → Nat
  place : SlotId → Nat

/-- What a run knows: the results so far and the contents of the slots. -/
structure Frame where
  results : InstrId → Option Datum
  mem : Memory

/-- How the run of a block ends; blocks are named by `β`. -/
inductive Exit (β : Type) where
  | goto (target : β)
  | returned (x : BitVec 32)
deriving DecidableEq, Repr

/-- The same end with other names of blocks. -/
def Exit.map {β γ : Type} (g : β → γ) : Exit β → Exit γ
  | goto target => goto (g target)
  | returned x => returned x

namespace Frame

/-- Records the result of an instruction. -/
def set (fr : Frame) (i : InstrId) (d : Datum) : Frame :=
  { fr with results := fun j => if j = i then some d else fr.results j }

@[simp] theorem results_set_self (fr : Frame) (i : InstrId) (d : Datum) :
    (fr.set i d).results i = some d := if_pos rfl

theorem results_set_of_ne (fr : Frame) {i j : InstrId} (h : j ≠ i) (d : Datum) :
    (fr.set i d).results j = fr.results j := if_neg h

/-- Records the results of several instructions. -/
def setAll (fr : Frame) (ds : List (InstrId × Datum)) : Frame :=
  { fr with results := fun j => (ds.lookup j).or (fr.results j) }

/-- Several results are found where they were recorded. -/
theorem results_setAll_zip (fr : Frame) {is : List InstrId} (d : InstrId → Datum) (j : InstrId) :
    (fr.setAll (is.zip (is.map d))).results j = if j ∈ is then some (d j) else fr.results j := by
  rw [setAll, ← List.map_prod_left_eq_zip]
  by_cases hj : j ∈ is
  · have hlook : (is.map fun i => (i, d i)).lookup j = some (d j) :=
      lookup_map_of_mem hj fun _ _ h => h
    rw [if_pos hj]
    exact congrArg (Option.or · _) hlook
  · have hlook : (is.map fun i => (i, d i)).lookup j = none :=
      lookup_map_eq_none fun i hi he => hj (he ▸ hi)
    rw [if_neg hj]
    exact congrArg (Option.or · _) hlook

/-- Changes the contents of a slot. -/
def store (fr : Frame) (s : SlotId) (x : BitVec 32) : Frame := { fr with mem := fr.mem.set s x }

end Frame

/-! ### Operations on numbers -/

/-- Sums and differences wrap around. -/
def BinaryOp.eval? (op : BinaryOp) {w : Nat} (x y : BitVec w) : Option (BitVec w) :=
  match op with
  | .add => some (x + y)
  | .sub => some (x - y)
  | _ => none

/-- Whether a predicate holds of two numbers. -/
def Predicate.holds (p : Predicate) {w : Nat} (x y : BitVec w) : Bool :=
  match p with
  | .eq => x == y
  | .ne => x != y
  | .slt => x.slt y
  | .sge => y.sle x
  | .sgt => y.slt x
  | .sle => x.sle y
  | .ult => x.ult y
  | .uge => y.ule x
  | .ugt => y.ult x
  | .ule => x.ule y

namespace Datum

/-- The number that a value is. -/
def number? : Datum → Option Nat
  | number n => some n
  | address _ => none

/-- The slot whose address a value is. -/
def address? : Datum → Option SlotId
  | number _ => none
  | address s => some s

/-- The bits of a value. -/
def bits (inp : Inputs) : Datum → Nat
  | number n => n
  | address s => inp.place s

end Datum

namespace Source

variable (src : Source) (inp : Inputs)

/-! ### Values -/

/-- The width of the type of a value. -/
def widthOf (v : ValueId) : Nat :=
  match src.func.valueType v with
  | .ok t => src.types.width t
  | .error _ => 0

variable {src} in
theorem widthOf_eq {v : ValueId} {t : TypeId} (ht : src.func.valueType v = .ok t) :
    src.widthOf v = src.types.width t := by
  rw [Source.widthOf, ht]

/-- The meaning of a value. -/
def evalValue (fr : Frame) (v : ValueId) : Option Datum :=
  match src.func.values[v]? with
  | some (.result i) => fr.results i
  | some (.const payload t) =>
    some (.number (BitVec.ofInt (src.types.width t) payload.toInt).toNat)
  | some (.arg n t) => some (.number (BitVec.ofNat (src.types.width t) (inp.args n)).toNat)
  | _ => none

/-- The number that a value means. -/
def evalNumber (fr : Frame) (v : ValueId) : Option Nat :=
  (src.evalValue inp fr v).bind Datum.number?

/-- The slot whose address a value means. -/
def evalSlot (fr : Frame) (v : ValueId) : Option SlotId :=
  (src.evalValue inp fr v).bind Datum.address?

/-- Whether the type of a value is `i32`. -/
def isWord (v : ValueId) : Bool :=
  match src.func.valueType v with
  | .ok t => src.types.isInt t 32
  | .error _ => false

variable {src} in
theorem widthOf_of_isWord {v : ValueId} (h : src.isWord v = true) : src.widthOf v = 32 := by
  unfold isWord at h
  split at h
  · next t ht => rw [widthOf_eq ht, TypeTable.width_of_isInt h]
  · cases h

/-- The word that a value of type `i32` means. -/
def evalWord (fr : Frame) (v : ValueId) : Option (BitVec 32) :=
  if src.isWord v then (src.evalNumber inp fr v).map (BitVec.ofNat 32) else none

/-- What comparing two values gives. -/
def compare (fr : Frame) (p : Predicate) (x y : ValueId) : Option Datum := do
  let m := (← src.evalValue inp fr x).bits inp
  let n := (← src.evalValue inp fr y).bits inp
  let holds := p.holds (BitVec.ofNat (src.widthOf x) m) (BitVec.ofNat (src.widthOf x) n)
  return .number holds.toNat

variable {src inp} in
/-- Words are compared as such. -/
theorem compare_of_isWord {fr : Frame} {p : Predicate} {x y : ValueId} {m n : Nat}
    (hw : src.isWord x = true) (hx : src.evalValue inp fr x = some (.number m))
    (hy : src.evalValue inp fr y = some (.number n)) :
    src.compare inp fr p x y =
      some (.number (p.holds (BitVec.ofNat 32 m) (BitVec.ofNat 32 n)).toNat) := by
  rw [compare, hx, hy, widthOf_of_isWord hw]
  rfl

/-! ### Operations -/

/-- The meaning of an operation that is neither a phi nor a terminator, as the operation of an
instruction. -/
def execOp (i : InstrId) (op : Operation) (fr : Frame) : Option Frame :=
  match op with
  | .alloca _ _ _ _ => some (fr.set i (.address (src.func.slotOf i)))
  | .load t addr =>
    if src.types.isInt t 32 then
      (src.evalSlot inp fr addr).map fun s => fr.set i (.number (fr.mem s).toNat)
    else none
  | .store v addr => do
    let s ← src.evalSlot inp fr addr
    let x ← src.evalWord inp fr v
    return fr.store s x
  | .binary op t x y => do
    let m ← src.evalNumber inp fr x
    let n ← src.evalNumber inp fr y
    let r ← op.eval? (BitVec.ofNat (src.types.width t) m) (BitVec.ofNat (src.types.width t) n)
    return fr.set i (.number r.toNat)
  | .icmp p _ x y => (src.compare inp fr p x y).map (fr.set i)
  | _ => none

/-- How a terminator ends a block. -/
def exitOf (op : Operation) (fr : Frame) : Option (Exit BlockId) :=
  match op with
  | .br target => some (.goto target)
  | .condBr cond thenBlock elseBlock =>
    (src.evalNumber inp fr cond).map fun n => .goto (if n = 0 then elseBlock else thenBlock)
  | .ret (some v) => (src.evalWord inp fr v).map .returned
  | _ => none

/-! ### Blocks -/

/-- The instructions of a block from some point on. -/
def execBody : List InstrId → Frame → Option (Exit BlockId × Frame)
  | [], _ => none
  | i :: rest, fr =>
    match src.func.opOf i with
    | none => none
    | some op =>
      if op.isTerminator then (src.exitOf inp op fr).map fun e => (e, fr)
      else (src.execOp inp i op fr).bind (execBody rest)

/-- Whether an instruction is a phi. -/
def isPhi (i : InstrId) : Bool := (src.func.opOf i).any (·.isPhi)

/-- The value of a phi when control comes from a block. -/
def phiInput (prev : Option BlockId) (fr : Frame) (i : InstrId) : Option Datum :=
  match src.func.opOf i, prev with
  | some (.phi _ incoming), some p =>
    (incoming.find? (·.2 == p)).bind fun inc => src.evalValue inp fr inc.1
  | _, _ => none

/-- The phis at the head of a block. They read their values before any is written. -/
def execPhis (prev : Option BlockId) (phis : List InstrId) (fr : Frame) : Option Frame :=
  (phis.mapM (src.phiInput inp prev fr)).map fun ds => fr.setAll (phis.zip ds)

/-- The meaning of a block when control comes from `prev`, or when the function starts. -/
def execBlock (b : BlockId) (prev : Option BlockId) (fr : Frame) :
    Option (Exit BlockId × Frame) :=
  (src.execPhis inp prev ((src.func.instrsOf b).takeWhile src.isPhi) fr).bind
    (src.execBody inp ((src.func.instrsOf b).dropWhile src.isPhi))

end Source

/-! ### Runs -/

/-- A run of at most `n` steps. A step leads to another state or ends the run with a result; a run
that is stuck has no outcome. -/
def runSteps {σ ρ : Type} (step : σ → Option (σ ⊕ ρ)) : Nat → σ → Option (σ ⊕ ρ)
  | 0, s => some (.inl s)
  | n + 1, s =>
    match step s with
    | some (.inl s) => runSteps step n s
    | outcome => outcome

/-- Where a run is between two blocks: the next block, the one from which control comes, and the
state of the run. Blocks are named by `β`. -/
structure Position (β σ : Type) where
  block : β
  prev : Option β
  state : σ

/-- The returned word and the contents of the slots at the end. -/
abbrev Outcome := BitVec 32 × Memory

namespace Source

variable (src : Source) (inp : Inputs)

/-- The run of one block. -/
def step (p : Position BlockId Frame) : Option (Position BlockId Frame ⊕ Outcome) :=
  match src.execBlock inp p.block p.prev p.state with
  | some (.goto b, fr) => some (.inl ⟨b, some p.block, fr⟩)
  | some (.returned x, fr) => some (.inr (x, fr.mem))
  | none => none

/-- What a function does within `n` blocks when the slots hold `mem` at the start. -/
def run (mem : Memory) (n : Nat) : Option (Position BlockId Frame ⊕ Outcome) :=
  if src.func.isDeclaration then none
  else runSteps (src.step inp) n ⟨0, none, { results := fun _ => none, mem }⟩

end Source

end Codegen
