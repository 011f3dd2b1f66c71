import Codegen.Func

/-!
# The order of the blocks

The blocks that can be reached from the entry are numbered by a depth-first walk. The walk keeps a
stack of blocks. A block on top that is met for the first time stays on the stack below those of
its successors that were never on it; when it is on top again, it is finished. A block is marked
when it goes on the stack, not when it is met.

## Main definitions

* `Func.Walk`, `Func.Walk.step`: the state of the walk and one step of it.
* `Func.order`: the reachable blocks, in the reverse of the order in which they are finished.
-/

namespace Codegen.Func

/-- How far the walk has come with a block. -/
inductive Mark where
  /-- The block was never on the stack. -/
  | unseen
  /-- The block is on the stack and its successors were not looked at. -/
  | seen
  /-- The successors of the block were put on the stack. -/
  | done
deriving DecidableEq, Repr

/-- The state of the walk. -/
structure Walk where
  /-- The mark of each block. -/
  marks : Array Mark
  /-- The stack, top first. -/
  stack : List BlockId
  /-- The finished blocks, last finished first. -/
  finished : List BlockId
deriving DecidableEq, Repr

namespace Walk

/-- The walk before its first step, with the entry on the stack. -/
def start (blocks : Nat) (entry : BlockId) : Walk :=
  { marks := (Array.replicate blocks .unseen).setIfInBounds entry .seen
    stack := [entry]
    finished := [] }

/-- Puts a block on the stack unless it was there before. -/
def push (w : Walk) (b : BlockId) : Except Fault Walk :=
  match w.marks[b]? with
  | none => .error .outOfRange
  | some .unseen => .ok { w with marks := w.marks.setIfInBounds b .seen, stack := b :: w.stack }
  | some _ => .ok w

/-- One step of the walk from the block on top of the stack. The last successor is put on the
stack first, so that the first one is met first. -/
def step (f : Func) (w : Walk) (b : BlockId) (rest : List BlockId) : Except Fault Walk := do
  match w.marks[b]? with
  | some .seen =>
    let w ← (← f.block b).succs.reverse.foldlM push w
    return { w with marks := w.marks.setIfInBounds b .done }
  | some .done => return { w with stack := rest, finished := b :: w.finished }
  | _ => return { w with stack := rest }

/-- Walks on until the stack is empty, for at most `fuel` steps. -/
def run (f : Func) : Nat → Walk → Except Fault (List BlockId)
  | 0, _ => .error .outOfRange
  | fuel + 1, w =>
    match w.stack with
    | [] => .ok w.finished
    | b :: rest => do run f fuel (← w.step f b rest)

end Walk

/-- The blocks that can be reached from the entry, in the reverse of the order in which the walk
finishes them. Every block is met at most twice, which bounds the number of steps. -/
def order (f : Func) : Except Fault (List BlockId) :=
  if f.isDeclaration then .ok []
  else (Walk.start f.blocks.size 0).run f (2 * f.blocks.size + 1)

end Codegen.Func
