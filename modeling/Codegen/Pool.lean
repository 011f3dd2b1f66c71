import Codegen.Fault

/-!
# Paged storage

A pool hands out items one after the other from pages of a fixed size. A page that was handed out
is never moved. Emptying a pool wipes the pages in use and keeps them, so that they are handed out
again. An item can be looked at as soon as its page is in use, whether the item was handed out or
not.

## Main definitions

* `Pool`: a pool of items.
* `Pool.allocate`, `Pool.view`, `Pool.write`, `Pool.reset`: the operations.
-/

namespace Codegen

/-- A pool of items. -/
structure Pool (α : Type) where
  /-- All pages that were ever made. -/
  pages : Array (Array α) := #[]
  /-- How many of the pages are in use. -/
  used : Nat := 0
  /-- How many items of the last page in use are handed out. -/
  cursor : Nat := 128
  /-- How many items are handed out. -/
  allocated : Nat := 0
deriving DecidableEq, Repr

namespace Pool

/-- The number of items of a page. -/
def pageSize : Nat := 128

variable {α : Type}

/-- A page of items that were never written. -/
def blankPage (zero : α) : Array α := Array.replicate pageSize zero

/-- Takes one more page into use: a kept one if there is one, else a new one. -/
def openPage (zero : α) (p : Pool α) : Pool α :=
  { p with
    pages := if p.used < p.pages.size then p.pages else p.pages.push (blankPage zero)
    used := p.used + 1
    cursor := 0 }

/-- Hands out one more item, and gives its position. -/
def allocate (zero : α) (p : Pool α) : Nat × Pool α :=
  let p := if p.cursor = pageSize then p.openPage zero else p
  ((p.used - 1) * pageSize + p.cursor,
    { p with cursor := p.cursor + 1, allocated := p.allocated + 1 })

/-- The item at a position of a page in use. -/
def view (p : Pool α) (i : Nat) : Except Fault α :=
  if i / pageSize < p.used then
    match p.pages[i / pageSize]?.bind (·[i % pageSize]?) with
    | some a => .ok a
    | none => .error .outOfRange
  else .error .outOfRange

/-- Writes the item at a position of a page in use. -/
def write (p : Pool α) (i : Nat) (a : α) : Except Fault (Pool α) := do
  let _ ← p.view i
  return { p with pages := p.pages.modify (i / pageSize) (·.setIfInBounds (i % pageSize) a) }

/-- Takes all pages out of use and wipes those that were in use. -/
def reset (zero : α) (p : Pool α) : Pool α :=
  { pages := p.pages.mapIdx fun i page => if i < p.used then blankPage zero else page }

/-- Hands out items and writes values into them; the items that were not blank are counted. -/
def fill [DecidableEq α] (zero : α) : List α → Pool α → Except Fault (Nat × Pool α)
  | [], p => return (0, p)
  | a :: as, p => do
    let (i, p) := p.allocate zero
    let old ← p.view i
    let (dirty, p) ← fill zero as (← p.write i a)
    return (if old = zero then dirty else dirty + 1, p)

end Pool

end Codegen
