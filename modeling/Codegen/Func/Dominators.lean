import Codegen.Func.Order

/-!
# Dominators

A block dominates another if every path from the entry to the other passes through it. The
immediate dominators are found by sweeping over the blocks in `Func.order` until nothing changes:
the immediate dominator of a block is the meeting point of its predecessors in the tree of the
immediate dominators known so far.

## Main definitions

* `Dominators`: the order of the blocks and the immediate dominator of each.
* `Dominators.meet`: the meeting point of two blocks in the tree.
* `Func.dominators`: the computation.
* `Dominators.dominates`: whether one block dominates another.
-/

namespace Codegen

/-- The immediate dominators of the blocks of a function. -/
structure Dominators where
  /-- The reachable blocks in order. -/
  order : List BlockId
  /-- The position of each block in the order; `none` if it cannot be reached. -/
  number : Array (Option Nat)
  /-- The immediate dominator of each block; the entry has itself, and a block that cannot be
  reached has none. -/
  idom : Array (Option BlockId)
deriving DecidableEq, Repr

namespace Dominators

/-- The position of each of `blocks` blocks in an order. -/
def numbering (blocks : Nat) (order : List BlockId) : Array (Option Nat) :=
  ((List.range order.length).zip order).foldl (fun a (n, b) => a.setIfInBounds b (some n))
    (Array.replicate blocks none)

/-- The block at which the paths from two blocks to the root of the tree meet. Of two different
blocks the one that is later in the order moves up, for at most `fuel` moves. -/
def meet (number : Array (Option Nat)) (idom : Array (Option BlockId)) :
    Nat → BlockId → BlockId → Except Fault BlockId
  | 0, _, _ => .error .outOfRange
  | fuel + 1, a, b =>
    if a = b then .ok a
    else match number[a]?.join, number[b]?.join with
      | some m, some n =>
        if n < m then
          match idom[a]?.join with
          | some a => meet number idom fuel a b
          | none => .error .outOfRange
        else
          match idom[b]?.join with
          | some b => meet number idom fuel a b
          | none => .error .outOfRange
      | _, _ => .error .outOfRange

/-- The meeting point of those predecessors whose immediate dominator is known. -/
def meetPreds (number : Array (Option Nat)) (idom : Array (Option BlockId)) (fuel : Nat) :
    Option BlockId → List BlockId → Except Fault (Option BlockId)
  | u, [] => .ok u
  | u, p :: ps =>
    match idom[p]?.join, u with
    | none, u => meetPreds number idom fuel u ps
    | some _, none => meetPreds number idom fuel (some p) ps
    | some _, some u => do
      let u ← meet number idom fuel u p
      meetPreds number idom fuel (some u) ps

/-- Computes the immediate dominators of some blocks again, one after the other, and says whether
any of them changed. -/
def sweep (f : Func) (number : Array (Option Nat)) :
    List BlockId → Array (Option BlockId) → Bool → Except Fault (Array (Option BlockId) × Bool)
  | [], idom, changed => .ok (idom, changed)
  | b :: bs, idom, changed => do
    let u ← meetPreds number idom (2 * f.blocks.size + 1) none (← f.block b).preds
    if idom[b]?.join = u then sweep f number bs idom changed
    else sweep f number bs (idom.setIfInBounds b u) true

/-- Sweeps until nothing changes, at most `fuel` times. -/
def settle (f : Func) (number : Array (Option Nat)) (blocks : List BlockId) :
    Nat → Array (Option BlockId) → Except Fault (Array (Option BlockId))
  | 0, _ => .error .outOfRange
  | fuel + 1, idom => do
    let (idom, changed) ← sweep f number blocks idom false
    if changed then settle f number blocks fuel idom else return idom

/-- Whether a block can be reached from the entry. -/
def reachable (d : Dominators) (b : BlockId) : Bool := d.number[b]?.join.isSome

/-- Whether `a` is met on the way from a block up to the root of the tree. -/
def isAbove (idom : Array (Option BlockId)) (a : BlockId) : Nat → BlockId → Bool
  | 0, _ => false
  | fuel + 1, b =>
    if a = b then true
    else match idom[b]?.join with
      | none => false
      | some c => if c = b then false else isAbove idom a fuel c

/-- Whether `a` dominates `b`. A block that cannot be reached neither dominates nor is
dominated. -/
def dominates (d : Dominators) (a b : BlockId) : Bool :=
  d.reachable a && d.reachable b && isAbove d.idom a (d.idom.size + 1) b

end Dominators

/-- The immediate dominators of a function. A sweep that changes something moves the immediate
dominator of some block to an earlier block in the order, which bounds the number of sweeps. -/
def Func.dominators (f : Func) : Except Fault Dominators := do
  let blocks := f.blocks.size
  let order ← f.order
  let number := Dominators.numbering blocks order
  let start := Array.replicate blocks none
  match order with
  | [] => return { order, number, idom := start }
  | entry :: rest =>
    let idom ← Dominators.settle f number rest (blocks * blocks + 2)
      (start.setIfInBounds entry (some entry))
    return { order, number, idom }

end Codegen
