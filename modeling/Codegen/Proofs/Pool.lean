import Codegen.Pool
import Codegen.Proofs.Answer

/-!
# Paged storage as a growable array

Items are handed out page by page, and a position is turned into a page and a slot when the item is
looked at. The number of items that are handed out fixes both the number of pages in use and how far
the last one has got, so that the item that is handed out next is the one at the next position. All
slots behind the last item are blank, also those of the pages that are kept while they are not in
use, since a page is wiped when it is taken out of use and only items that are handed out are
written. A pool therefore holds an array that grows by one blank item at a time.

## Main definitions

* `Pool.cell`: what the slot of a position holds, whether its page is in use or not.
* `Pool.Holds`: the pools that hold the items of a list and are blank behind them.
* `Pool.Step`, `Pool.Session`, `Pool.performAll`: what is done with a pool.
* `Pool.allocations`, `Pool.lastWritten`: what the steps since the last reset say about the items.

## Main results

* `Pool.Holds.allocate`, `Pool.Holds.write`, `Pool.Holds.reset`: the operations on a list.
* `Pool.Holds.fill`: items are blank when they are handed out.
* `Pool.performAll_as_array`: any sequence of steps.
-/

namespace Codegen.Pool

variable {α : Type} {zero a : α} {p : Pool α} {xs : List α} {i : Nat}

/-! ### Slots -/

/-- What the slot of a position holds, if its page was ever made. -/
def cell (p : Pool α) (i : Nat) : Option α := p.pages[i / pageSize]?.bind (·[i % pageSize]?)

theorem view_eq (p : Pool α) (i : Nat) : p.view i =
    if i / pageSize < p.used then (p.cell i).elim (.error .outOfRange) .ok
    else .error .outOfRange := by
  unfold view cell
  cases p.pages[i / pageSize]?.bind (·[i % pageSize]?) <;> rfl

theorem view_eq_ok : p.view i = .ok a ↔ i / pageSize < p.used ∧ p.cell i = some a := by
  rw [view_eq]
  by_cases hused : i / pageSize < p.used
  · cases p.cell i <;> simp [hused]
  · simp [hused]

/-- A position is a page and a slot in it. -/
theorem eq_of_page_of_slot {j : Nat} (hpage : j / pageSize = i / pageSize)
    (hslot : j % pageSize = i % pageSize) : j = i := by
  rw [← Nat.div_add_mod j pageSize, hpage, hslot, Nat.div_add_mod]

/-- An item that can be looked at can be written, and nothing else changes. -/
theorem exists_write {old : α} (h : p.view i = .ok old) (a : α) : ∃ pages,
    p.write i a = .ok { p with pages } ∧ pages.size = p.pages.size ∧
      ∀ j, cell { p with pages } j = if j = i then some a else p.cell j := by
  refine ⟨_, Except.bind_eq_ok.2 ⟨old, h, rfl⟩, Array.size_modify, fun j => ?_⟩
  obtain ⟨page, hpage, hslot⟩ := Option.bind_eq_some_iff.1 (view_eq_ok.1 h).2
  have hlt : i % pageSize < page.size := (Array.getElem?_eq_some_iff.1 hslot).1
  simp only [cell, Array.getElem?_modify]
  by_cases hj : j = i
  · subst hj
    simp [hpage, hlt]
  · rw [if_neg hj]
    -- Another item can be in the same page, but then it is in another slot.
    split
    · next hsame =>
      have hother : i % pageSize ≠ j % pageSize := fun hslot =>
        hj (eq_of_page_of_slot hsame.symm hslot.symm)
      rw [← hsame, hpage]
      simp [hother]
    · rfl

theorem cell_reset (h : p.used ≤ p.pages.size) (i : Nat) :
    (p.reset zero).cell i = if i / pageSize < p.used then some zero else p.cell i := by
  have hslot : i % pageSize < pageSize := Nat.mod_lt _ (by decide)
  simp only [cell, reset, Array.getElem?_mapIdx]
  by_cases hused : i / pageSize < p.used
  · have hlt : i / pageSize < p.pages.size := Nat.lt_of_lt_of_le hused h
    simp [hused, hlt, blankPage, hslot]
  · simp [hused]

/-! ### The array that a pool holds -/

/-- A pool that holds the items of a list at their positions and is blank behind them. The items
fill all pages in use but the last, of which as many slots are handed out as the cursor says. -/
structure Holds (zero : α) (p : Pool α) (xs : List α) : Prop where
  allocated : p.allocated = xs.length
  cursor_le : p.cursor ≤ pageSize
  -- An empty pool has no page in use and its cursor at the end of one, which is added on the left.
  layout : p.allocated + pageSize = p.used * pageSize + p.cursor
  used_le : p.used ≤ p.pages.size
  cell : ∀ i, i / pageSize < p.pages.size → p.cell i = some (xs[i]?.getD zero)

theorem Holds.empty : Holds zero {} [] :=
  ⟨rfl, Nat.le_refl _, rfl, Nat.le_refl _, fun _ hi => absurd hi (Nat.not_lt_zero _)⟩

/-- Every item is in a page in use. -/
theorem Holds.page_lt (h : Holds zero p xs) (hi : i < xs.length) : i / pageSize < p.used := by
  have hcount := h.allocated
  have hcursor := h.cursor_le
  have hlayout := h.layout
  unfold pageSize at *
  omega

theorem Holds.view (h : Holds zero p xs) (hi : i < xs.length) : p.view i = .ok xs[i] := by
  have hpage := h.page_lt hi
  refine view_eq_ok.2 ⟨hpage, ?_⟩
  rw [h.cell i (Nat.lt_of_lt_of_le hpage h.used_le), List.getElem?_eq_getElem hi, Option.getD_some]

/-- An item that was just handed out is the last one of the last page in use. -/
theorem Holds.used_eq_and_cursor_eq (h : Holds zero p (xs ++ [a])) (hcursor : 0 < p.cursor) :
    p.used = xs.length / pageSize + 1 ∧ p.cursor = xs.length % pageSize + 1 := by
  have hcount := h.allocated
  have hle := h.cursor_le
  have hlayout := h.layout
  rw [List.length_append, List.length_singleton] at hcount
  unfold pageSize at *
  omega

/-- Positions behind the last page in use are behind the last item. -/
theorem Holds.getElem?_eq_none (h : Holds zero p xs) (hi : p.used ≤ i / pageSize) :
    xs[i]? = none := by
  refine List.getElem?_eq_none (Nat.le_of_not_lt fun hlt => ?_)
  exact Nat.not_lt_of_le hi (h.page_lt hlt)

/-- Taking a page into use changes no item. -/
theorem Holds.openPage (h : Holds zero p xs) (hfull : p.cursor = pageSize) :
    Holds zero (p.openPage zero) xs where
  allocated := h.allocated
  cursor_le := Nat.zero_le _
  layout := by
    have hlayout := h.layout
    rw [hfull] at hlayout
    rw [Pool.openPage, hlayout, Nat.succ_mul, Nat.add_zero]
  used_le := by
    have hused := h.used_le
    unfold Pool.openPage
    by_cases hkept : p.used < p.pages.size
    · rw [if_pos hkept]
      exact hkept
    · rw [if_neg hkept, Array.size_push]
      exact Nat.succ_le_succ hused
  cell i hi := by
    unfold Pool.openPage at hi ⊢
    by_cases hkept : p.used < p.pages.size
    · rw [if_pos hkept] at hi ⊢
      exact h.cell i hi
    · rw [if_neg hkept] at hi ⊢
      rw [Array.size_push] at hi
      -- All pages are in use, so that the new one is behind all items.
      by_cases hnew : i / pageSize = p.pages.size
      · have hslot : i % pageSize < pageSize := Nat.mod_lt _ (by decide)
        rw [h.getElem?_eq_none (hnew ▸ h.used_le)]
        simp [Pool.cell, hnew, blankPage, hslot]
      · simpa [Pool.cell, Array.getElem?_push, hnew] using h.cell i (by omega)

/-- Where the last page in use has a slot left, it is the one at the next position, and it is blank.
-/
theorem Holds.advance (h : Holds zero p xs) (hroom : p.cursor < pageSize) :
    (p.used - 1) * pageSize + p.cursor = xs.length ∧
      Holds zero { p with cursor := p.cursor + 1, allocated := p.allocated + 1 }
        (xs ++ [zero]) := by
  have hlayout := h.layout
  refine ⟨?_, by simp [h.allocated], hroom, ?_, h.used_le, fun i hi => ?_⟩
  · have hcount := h.allocated
    unfold pageSize at *
    omega
  · change p.allocated + 1 + pageSize = p.used * pageSize + (p.cursor + 1)
    omega
  · refine (h.cell i hi).trans (congrArg some ?_)
    rw [List.getElem?_append]
    by_cases hlt : i < xs.length
    · rw [if_pos hlt]
    · rw [if_neg hlt, List.getElem?_eq_none (Nat.le_of_not_lt hlt)]
      cases i - xs.length <;> rfl

/-- The item that is handed out has the next position, and it is blank. -/
theorem Holds.allocate (h : Holds zero p xs) : ∃ p', p.allocate zero = (xs.length, p') ∧
    0 < p'.cursor ∧ Holds zero p' (xs ++ [zero]) := by
  unfold Pool.allocate
  by_cases hfull : p.cursor = pageSize
  · rw [if_pos hfull]
    obtain ⟨hpos, hnew⟩ := (h.openPage hfull).advance (Nat.zero_lt_succ _)
    exact ⟨_, congrArg (·, _) hpos, Nat.zero_lt_succ _, hnew⟩
  · rw [if_neg hfull]
    obtain ⟨hpos, hnew⟩ := h.advance (Nat.lt_of_le_of_ne h.cursor_le hfull)
    exact ⟨_, congrArg (·, _) hpos, Nat.zero_lt_succ _, hnew⟩

/-- An item that is handed out can be written. -/
theorem Holds.write (h : Holds zero p xs) (hi : i < xs.length) (a : α) :
    ∃ p', p.write i a = .ok p' ∧ Holds zero p' (xs.set i a) := by
  obtain ⟨pages, hwrite, hsize, hcell⟩ := exists_write (h.view hi) a
  refine ⟨_, hwrite, by simp [h.allocated], h.cursor_le, h.layout, hsize ▸ h.used_le,
    fun j hj => ?_⟩
  rw [hcell, List.getElem?_set]
  by_cases hj' : j = i
  · subst hj'
    simp [hi]
  · rw [if_neg hj', if_neg (Ne.symm hj')]
    exact h.cell j (hsize ▸ hj)

/-- Emptying a pool leaves blank pages only. -/
theorem Holds.reset (h : Holds zero p xs) : Holds zero (p.reset zero) [] where
  allocated := rfl
  cursor_le := Nat.le_refl _
  layout := rfl
  used_le := Nat.zero_le _
  cell i hi := by
    rw [Pool.reset, Array.size_mapIdx] at hi
    rw [cell_reset h.used_le]
    by_cases hused : i / pageSize < p.used
    · rw [if_pos hused]
      rfl
    · rw [if_neg hused, h.cell i hi, h.getElem?_eq_none (Nat.le_of_not_lt hused)]
      rfl

/-- Items are blank when they are handed out, and they keep what is written into them. -/
theorem Holds.fill [DecidableEq α] (h : Holds zero p xs) (as : List α) :
    ∃ p', Pool.fill zero as p = .ok (0, p') ∧ Holds zero p' (xs ++ as) := by
  induction as generalizing p xs with
  | nil => exact ⟨p, rfl, by rwa [List.append_nil]⟩
  | cons a as ih =>
    obtain ⟨q, hallocate, -, hq⟩ := h.allocate
    have hlt : xs.length < (xs ++ [zero]).length := by simp
    have hview := hq.view hlt
    obtain ⟨q', hwrite, hq'⟩ := hq.write hlt a
    rw [List.getElem_concat_length rfl] at hview
    rw [List.set_append_right _ _ (Nat.le_refl _), Nat.sub_self, List.set_cons_zero] at hq'
    obtain ⟨p', hfill, hp'⟩ := ih hq'
    refine ⟨p', ?_, by simpa using hp'⟩
    rw [Pool.fill, hallocate]
    refine Except.bind_eq_ok.2 ⟨zero, hview, Except.bind_eq_ok.2 ⟨q', hwrite, ?_⟩⟩
    exact Except.bind_eq_ok.2 ⟨(0, p'), hfill, by simp [pure, Except.pure]⟩

/-! ### What is done with a pool -/

/-- What the user of a pool can do with it. -/
inductive Step (α : Type) where
  /-- Asks for an item. -/
  | allocate
  /-- Writes through the item that was handed out as number `k` since the last reset, counted from
  zero. -/
  | write (k : Nat) (a : α)
  /-- Gives all items back. -/
  | reset

/-- A pool with the items that it has handed out since the last reset, in this order. -/
structure Session (α : Type) where
  /-- The pool. -/
  pool : Pool α := {}
  /-- The items. -/
  items : List Nat := []

/-- The effect of a step. Only an item that was handed out can be written through. -/
def Step.perform (zero : α) (s : Session α) : Step α → Except Fault (Session α)
  | .allocate =>
    let (i, p) := s.pool.allocate zero
    .ok ⟨p, s.items ++ [i]⟩
  | .write k a =>
    match s.items[k]? with
    | some i => do return { s with pool := ← s.pool.write i a }
    | none => .error .outOfRange
  | .reset => .ok ⟨s.pool.reset zero, []⟩

/-- The effect of some steps on a new pool. -/
def performAll (zero : α) (steps : List (Step α)) : Except Fault (Session α) :=
  steps.foldlM (Step.perform zero) {}

namespace Step

/-- Whether a step gives all items back. -/
def isReset : Step α → Bool
  | reset => true
  | _ => false

/-- Whether a step asks for an item. -/
def isAllocate : Step α → Bool
  | allocate => true
  | _ => false

/-- The value that a step writes through the item with a number. -/
def written (k : Nat) : Step α → Option α
  | write k' a => if k' = k then some a else none
  | _ => none

/-- How many items are handed out after a step, if `n` are before it. -/
def count (n : Nat) : Step α → Nat
  | allocate => n + 1
  | write _ _ => n
  | reset => 0

/-- A step that can be made when `n` items are handed out. -/
def Admissible (n : Nat) : Step α → Prop
  | write k _ => k < n
  | _ => True

end Step

/-- The steps since the last reset. -/
def sinceReset (steps : List (Step α)) : List (Step α) := steps.rtakeWhile (!·.isReset)

/-- How many items were asked for since the last reset. -/
def allocations (steps : List (Step α)) : Nat := (sinceReset steps).countP Step.isAllocate

/-- What was written since the last reset through the item with a number. -/
def writes (steps : List (Step α)) (k : Nat) : List α := (sinceReset steps).filterMap (·.written k)

/-- What was last written through the item with a number. -/
def lastWritten (zero : α) (steps : List (Step α)) (k : Nat) : α :=
  (writes steps k).getLast?.getD zero

/-- Steps that only write through items that are handed out at the time. -/
def AdmitsAll (steps : List (Step α)) : Prop :=
  ∀ n, (h : n < steps.length) → steps[n].Admissible (allocations (steps.take n))

instance (n : Nat) (step : Step α) : Decidable (step.Admissible n) :=
  match step with
  | .write k _ => Nat.decLt k n
  | .allocate | .reset => .isTrue trivial

instance (steps : List (Step α)) : Decidable (AdmitsAll steps) :=
  inferInstanceAs (Decidable (∀ n, (h : n < steps.length) →
    steps[n].Admissible (allocations (steps.take n))))

section History

variable {steps : List (Step α)} {step : Step α} {k : Nat}

theorem AdmitsAll.of_concat (h : AdmitsAll (steps ++ [step])) :
    AdmitsAll steps ∧ step.Admissible (allocations steps) := by
  constructor
  · intro n hn
    have hstep := h n (by simp; omega)
    rwa [List.getElem_append_left hn, List.take_append_of_le_length (Nat.le_of_lt hn)] at hstep
  · have hstep := h steps.length (by simp)
    rwa [List.getElem_concat_length rfl, List.take_left] at hstep

theorem sinceReset_concat (steps : List (Step α)) (step : Step α) :
    sinceReset (steps ++ [step]) = if step.isReset then [] else sinceReset steps ++ [step] := by
  rw [sinceReset, List.rtakeWhile_concat]
  cases step <;> rfl

theorem allocations_concat (steps : List (Step α)) (step : Step α) :
    allocations (steps ++ [step]) = step.count (allocations steps) := by
  rw [allocations, sinceReset_concat]
  cases step <;> simp [Step.isReset, Step.isAllocate, Step.count, allocations]

theorem writes_concat (steps : List (Step α)) (step : Step α) (k : Nat) :
    writes (steps ++ [step]) k =
      if step.isReset then [] else writes steps k ++ (step.written k).toList := by
  rw [writes, sinceReset_concat]
  by_cases hreset : step.isReset
  · simp [hreset]
  · cases hwritten : step.written k <;> simp [hreset, hwritten, writes]

/-- Nothing was written through an item that is not handed out. -/
theorem AdmitsAll.writes_eq_nil (h : AdmitsAll steps) (hk : allocations steps ≤ k) :
    writes steps k = [] := by
  induction steps using List.reverseRecOn with
  | nil => rfl
  | append_singleton steps step ih =>
    obtain ⟨hsteps, hstep⟩ := h.of_concat
    rw [allocations_concat] at hk
    rw [writes_concat]
    cases step with
    | allocate => exact (List.append_nil _).trans (ih hsteps (Nat.le_of_succ_le hk))
    | write k' a =>
      have hne : k' ≠ k := Nat.ne_of_lt (Nat.lt_of_lt_of_le hstep hk)
      rw [ih hsteps hk, Step.written, if_neg hne]
      rfl
    | reset => rfl

/-- The items that are handed out after some steps. -/
def contents (zero : α) (steps : List (Step α)) : List α :=
  (List.range (allocations steps)).map (lastWritten zero steps)

theorem length_contents (zero : α) (steps : List (Step α)) :
    (contents zero steps).length = allocations steps := by
  rw [contents, List.length_map, List.length_range]

theorem getElem_contents (zero : α) (hk : k < (contents zero steps).length) :
    (contents zero steps)[k] = lastWritten zero steps k := by
  simp [contents]

theorem contents_allocate (zero : α) (h : AdmitsAll steps) :
    contents zero (steps ++ [Step.allocate]) = contents zero steps ++ [zero] := by
  have hsame : lastWritten zero (steps ++ [Step.allocate]) = lastWritten zero steps := by
    funext k
    simp [lastWritten, writes_concat, Step.isReset, Step.written]
  have hnew : lastWritten zero steps (allocations steps) = zero := by
    rw [lastWritten, h.writes_eq_nil (Nat.le_refl _)]
    rfl
  rw [contents, allocations_concat, hsame, Step.count, List.range_succ, List.map_append,
    List.map_singleton, hnew, contents]

theorem contents_write (zero : α) (steps : List (Step α)) (k : Nat) (a : α) :
    contents zero (steps ++ [Step.write k a]) = (contents zero steps).set k a := by
  have hwritten (j : Nat) : lastWritten zero (steps ++ [Step.write k a]) j =
      if k = j then a else lastWritten zero steps j := by
    by_cases hj : k = j <;> simp [lastWritten, writes_concat, Step.isReset, Step.written, hj]
  apply List.ext_getElem
  · simp [length_contents, allocations_concat, Step.count]
  · intro j hj hj'
    rw [getElem_contents, hwritten, List.getElem_set, getElem_contents]

theorem contents_reset (zero : α) (steps : List (Step α)) :
    contents zero (steps ++ [Step.reset]) = [] := by
  rw [contents, allocations_concat]
  rfl

/-- A step does to the pool what it does to the array. -/
theorem exists_perform (hp : Holds zero p (contents zero steps)) (h : AdmitsAll steps)
    (hstep : step.Admissible (allocations steps)) :
    ∃ p', step.perform zero ⟨p, List.range (allocations steps)⟩ =
        .ok ⟨p', List.range (allocations (steps ++ [step]))⟩ ∧
      Holds zero p' (contents zero (steps ++ [step])) := by
  rw [allocations_concat]
  cases step with
  | allocate =>
    obtain ⟨p', hallocate, -, hp'⟩ := hp.allocate
    refine ⟨p', ?_, contents_allocate zero h ▸ hp'⟩
    rw [Step.perform, hallocate, Step.count, List.range_succ, length_contents]
  | write k a =>
    obtain ⟨p', hwrite, hp'⟩ := hp.write (length_contents zero steps ▸ hstep) a
    refine ⟨p', ?_, contents_write zero steps k a ▸ hp'⟩
    simp only [Step.perform, List.getElem?_range hstep, hwrite]
    rfl
  | reset => exact ⟨_, rfl, contents_reset zero steps ▸ hp.reset⟩

/-- After any steps the items are numbered in the order in which they were handed out. -/
theorem exists_performAll (zero : α) (h : AdmitsAll steps) :
    ∃ p, performAll zero steps = .ok ⟨p, List.range (allocations steps)⟩ ∧
      Holds zero p (contents zero steps) := by
  -- The induction takes the steps off the end, where the last reset is looked for.
  induction steps using List.reverseRecOn with
  | nil => exact ⟨{}, rfl, .empty⟩
  | append_singleton steps step ih =>
    obtain ⟨hsteps, hstep⟩ := h.of_concat
    obtain ⟨p, hperform, hp⟩ := ih hsteps
    obtain ⟨p', hnext, hp'⟩ := exists_perform hp hsteps hstep
    refine ⟨p', ?_, hp'⟩
    rw [performAll, List.foldlM_append]
    exact Except.bind_eq_ok.2 ⟨_, hperform, Except.bind_eq_ok.2 ⟨_, hnext, rfl⟩⟩

/-- A pool behaves as an array that grows, whatever is done with it, as long as only items that are
handed out are written through. It counts the items since the last reset. What is looked at with a
number is the item that was handed out with it, and it holds what was last written through it. Items
do not share storage: a write through one changes nothing that is looked at with another number. The
next item gets the next number. It is in the slot of the last page in use that the cursor has just
passed, and it is blank, whatever was written there before a reset. -/
theorem performAll_as_array (zero : α) (h : AdmitsAll steps) :
    ∃ s, performAll zero steps = .ok s ∧ s.pool.allocated = allocations steps ∧
      s.items.length = allocations steps ∧
      (∀ i < allocations steps,
        s.items[i]? = some i ∧ s.pool.view i = .ok (lastWritten zero steps i)) ∧
      (∀ i < allocations steps, ∀ a, ∃ p, s.pool.write i a = .ok p ∧ p.view i = .ok a ∧
        ∀ j ≠ i, p.view j = s.pool.view j) ∧
      ∃ p, s.pool.allocate zero = (allocations steps, p) ∧
        p.used = allocations steps / pageSize + 1 ∧ p.cursor = allocations steps % pageSize + 1 ∧
        p.view (allocations steps) = .ok zero ∧
        ∀ j < allocations steps, p.view j = s.pool.view j := by
  obtain ⟨p, hperform, hp⟩ := exists_performAll zero h
  have hlength := length_contents zero steps
  obtain ⟨q, hallocate, hcursor, hq⟩ := hp.allocate
  have hplace := hq.used_eq_and_cursor_eq hcursor
  have hblank : q.view (contents zero steps).length = .ok zero := by
    rw [hq.view (by simp), List.getElem_concat_length rfl]
  rw [hlength] at hallocate hplace hblank
  refine ⟨_, hperform, hp.allocated.trans hlength, List.length_range, fun i hi => ⟨?_, ?_⟩,
    fun i hi a => ?_, q, hallocate, hplace.1, hplace.2, hblank, fun j hj => ?_⟩
  · exact List.getElem?_range hi
  · rw [hp.view (hlength.symm ▸ hi), getElem_contents]
  · have hview := hp.view (hlength.symm ▸ hi)
    obtain ⟨pages, hwrite, -, hcell⟩ := exists_write hview a
    refine ⟨_, hwrite, view_eq_ok.2 ⟨(view_eq_ok.1 hview).1, ?_⟩, fun j hj => ?_⟩
    · rw [hcell, if_pos rfl]
    · rw [view_eq, hcell, if_neg hj, view_eq]
  · have hj' : j < (contents zero steps).length := hlength.symm ▸ hj
    rw [hq.view (by simp; omega), hp.view hj', List.getElem_append_left hj']

/-- An item that is written, a reset, and then more than a page of items, two of which are written.
-/
def sampleSteps : List (Step Nat) :=
  [Step.allocate, .write 0 5, .reset] ++ List.replicate 129 Step.allocate ++
    [Step.write 128 9, .write 1 4, .write 1 6]

theorem performAll_as_array_sample : AdmitsAll sampleSteps ∧
    ∃ s, performAll 0 sampleSteps = .ok s ∧ s.pool.allocated = 129 ∧ s.pool.view 0 = .ok 0 ∧
      s.pool.view 1 = .ok 6 ∧ s.pool.view 128 = .ok 9 ∧
      ∃ p, s.pool.allocate 0 = (129, p) ∧ p.view 129 = .ok 0 := by
  have hadmits : AdmitsAll sampleSteps := by decide +kernel
  have hcount : allocations sampleSteps = 129 := by decide +kernel
  obtain ⟨s, hperform, hallocated, -, hitems, -, p, hallocate, -, -, hblank, -⟩ :=
    performAll_as_array 0 hadmits
  rw [hcount] at hallocated hallocate hblank hitems
  have hlast : lastWritten 0 sampleSteps 0 = 0 ∧ lastWritten 0 sampleSteps 1 = 6 ∧
      lastWritten 0 sampleSteps 128 = 9 := by decide +kernel
  refine ⟨hadmits, s, hperform, hallocated, ?_, ?_, ?_, p, hallocate, hblank⟩
  · rw [(hitems 0 (by decide)).2, hlast.1]
  · rw [(hitems 1 (by decide)).2, hlast.2.1]
  · rw [(hitems 128 (by decide)).2, hlast.2.2]

end History

end Codegen.Pool
