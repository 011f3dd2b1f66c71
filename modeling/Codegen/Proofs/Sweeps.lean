import Codegen.Proofs.Dominators

/-!
# The loops of the dominator computation end

The sweeps go over a table of parents that changes while it is read. At every moment of every sweep
the parent of a block other than the entry comes before it in the order and has a parent itself, so
that a walk up from a block that is known takes at most as many steps as the number of the block
says, and never leaves the table. This bounds the search for the meeting point of two blocks and
the search for an ancestor. What a sweep gives to a block is never behind the parent that the block
had, which bounds the sweeps.

The sweeps are followed as they are run. A sweep begins with the table that the one before it left,
and a moment of it is what the same sweep gives over the blocks that are behind it.

## Main definitions

* `Dominators.Grounded`: tables in which every walk up ends.
* `Dominators.Opening`, `Dominators.Moment`: the tables at the beginning and in the middle of the
  sweeps.

## Main results

* `Dominators.Tree.grounded`: trees over the order are such tables.
* `Dominators.Opening.stage`, `Dominators.Moment.stage`: the invariant holds at every moment.
* `Func.sweeps_end`: all loops of the computation end.
-/

namespace Codegen.Dominators

variable {f : Func} {order visited left : List BlockId} {idom idom' : Array (Option BlockId)}
  {a b : BlockId} {k n : Nat}

/-! ### Walks up -/

/-- A table in which every walk up from a block that is known ends. -/
structure Grounded (f : Func) (number : Array (Option Nat)) (idom : Array (Option BlockId)) :
    Prop where
  /-- The parent of a block other than the entry can be reached, is known and has a smaller
  number. -/
  parent_lt : ∀ {b c}, parent idom b = some c → b ≠ 0 → f.Reachable c ∧ (parent idom c).isSome ∧
    ∃ m n, number[c]? = some (some m) ∧ number[b]? = some (some n) ∧ m < n
  /-- The nearest common ancestor of two blocks is found in at most as many steps as the numbers of
  the blocks say. -/
  exists_meet : ∀ {a b}, (parent idom a).isSome → (parent idom b).isSome →
    ∃ m n u, number[a]? = some (some m) ∧ number[b]? = some (some n) ∧
      (∀ fuel, m + n < fuel → meet number idom fuel a b = .ok u) ∧
      ∀ x, Above (parent idom) x u ↔ Above (parent idom) x a ∧ Above (parent idom) x b
  /-- The entry is above every block that is known, and an ancestor is found in at most as many
  steps as the number of the block says. -/
  isAbove_iff : ∀ {b}, (parent idom b).isSome → ∃ n, number[b]? = some (some n) ∧
    Above (parent idom) 0 b ∧
    ∀ a fuel, n < fuel → (isAbove idom a fuel b = true ↔ Above (parent idom) a b)

theorem getElem?_numbering (hcon : f.Consistent) (he : f.Enumerates order) (hb : b ∈ order) :
    (numbering f.blocks.size order)[b]? = some (some (order.idxOf b)) := by
  have hjoin := join_numbering (b := b) he.nodup fun b hb => (he.mem_iff.1 hb).lt_size hcon
  rw [if_pos hb] at hjoin
  exact Option.join_eq_some_iff.1 hjoin

/-- The meeting point does not depend on the bound. -/
theorem Tree.exists_meet_of_lt (h : Tree order (parent idom)) {number : Array (Option Nat)}
    (hnum : ∀ b ∈ order, number[b]?.join = some (order.idxOf b)) (ha : (parent idom a).isSome)
    (hb : (parent idom b).isSome) :
    ∃ u, (∀ fuel, order.idxOf a + order.idxOf b < fuel → meet number idom fuel a b = .ok u) ∧
      ∀ x, Above (parent idom) x u ↔ Above (parent idom) x a ∧ Above (parent idom) x b := by
  obtain ⟨u, -, hu, habove⟩ := h.exists_meet hnum _ ha hb (Nat.lt_succ_self _)
  refine ⟨u, fun fuel hfuel => ?_, habove⟩
  obtain ⟨v, hv, hvs, habove'⟩ := h.exists_meet hnum fuel ha hb hfuel
  have huv : Above (parent idom) u v := (habove' u).2 ((habove u).1 .refl)
  have hvu : Above (parent idom) v u := (habove v).2 ((habove' v).1 .refl)
  rw [hv, h.antisymm hvs huv hvu]

theorem Tree.grounded (h : Tree order (parent idom)) (hcon : f.Consistent)
    (he : f.Enumerates order) : Grounded f (numbering f.blocks.size order) idom where
  parent_lt {b c} hc hb0 := by
    have hcs := h.isSome_parent hc
    have hco := h.mem_of_isSome hcs
    exact ⟨he.mem_iff.1 hco, hcs, _, _, getElem?_numbering hcon he hco,
      getElem?_numbering hcon he (h.mem hc), h.lt hc hb0⟩
  exists_meet {a b} ha hb := by
    have hnum (b : BlockId) (hb : b ∈ order) :
        (numbering f.blocks.size order)[b]?.join = some (order.idxOf b) := by
      rw [getElem?_numbering hcon he hb]
      rfl
    obtain ⟨u, hmeet, habove⟩ := h.exists_meet_of_lt hnum ha hb
    exact ⟨_, _, u, getElem?_numbering hcon he (h.mem_of_isSome ha),
      getElem?_numbering hcon he (h.mem_of_isSome hb), hmeet, habove⟩
  isAbove_iff {b} hb :=
    ⟨_, getElem?_numbering hcon he (h.mem_of_isSome hb), h.entry_above hb,
      fun _ _ hfuel => h.isAbove_iff hb hfuel⟩

/-! ### The moments of the sweeps -/

/-- The tables with which the sweeps begin, numbered from one. A sweep that changes something is
followed by another. -/
inductive Opening (f : Func) (order : List BlockId) : Nat → Array (Option BlockId) → Prop
  | first : Opening f order 1 ((Array.replicate f.blocks.size none).setIfInBounds 0 (some 0))
  | next {n : Nat} {idom idom' : Array (Option BlockId)} (h : Opening f order n idom)
      (hsweep : sweep f (numbering f.blocks.size order) order.tail idom false = .ok (idom', true)) :
      Opening f order (n + 1) idom'

/-- The table in sweep `n` when the blocks `visited` are behind and the blocks `left` are ahead. -/
def Moment (f : Func) (order : List BlockId) (n : Nat) (visited left : List BlockId)
    (idom : Array (Option BlockId)) : Prop :=
  order.tail = visited ++ left ∧ ∃ start changed, Opening f order n start ∧
    sweep f (numbering f.blocks.size order) visited start false = .ok (idom, changed)

/-- A sweep gets over any blocks that are ahead and keeps the invariant. -/
theorem Stage.exists_sweep (hcon : f.Consistent) (he : f.Enumerates order) (changed : Bool)
    (hsize : idom.size = f.blocks.size) (hk : 0 < k) (hdrop : order.drop k = visited ++ left)
    (h : Stage f order k (parent idom)) :
    ∃ idom' changed', Dominators.sweep f (numbering f.blocks.size order) visited idom changed =
        .ok (idom', changed') ∧ idom'.size = f.blocks.size ∧
      Stage f order (k + visited.length) (parent idom') := by
  induction visited generalizing k idom changed with
  | nil => exact ⟨idom, changed, rfl, hsize, h⟩
  | cons b visited ih =>
    obtain ⟨idom₁, changed₁, hstep, hsize₁, h₁, -⟩ := h.visit hcon he changed hsize hk hdrop
    obtain ⟨idom', changed', hs, hsize', h'⟩ :=
      ih changed₁ hsize₁ (Nat.succ_pos k) (drop_eq_cons he hk hdrop).2.2.2 h₁
    refine ⟨idom', changed', (hstep visited).trans hs, hsize', ?_⟩
    rwa [List.length_cons, Nat.add_comm visited.length, ← Nat.add_assoc]

/-- A sweep begins with a tree, and the cost of the tables has gone down since the first one. -/
theorem Opening.stage (hcon : f.Consistent) (he : f.Enumerates order)
    (h : Opening f order n idom) : idom.size = f.blocks.size ∧ Stage f order 1 (parent idom) ∧
      n + cost order idom ≤ f.blocks.size * f.blocks.size + 1 := by
  induction h with
  | first =>
    have hf : 0 < f.blocks.size := (he.mem_iff.1 he.entry_mem).lt_size hcon
    have hcost := cost_start_le hcon he
    exact ⟨by simp, stage_start he hf, by omega⟩
  | next _ hsweep ih =>
    obtain ⟨hsize, h, hle⟩ := ih
    obtain ⟨idom', changed, hs, hsize', h', hcost⟩ :=
      h.sweep hcon he false hsize Nat.one_pos List.drop_one
    cases hsweep.symm.trans hs
    rcases hcost with ⟨-, hfalse, -⟩ | ⟨hcost, -⟩
    · cases hfalse
    · exact ⟨hsize', h', by omega⟩

theorem Moment.stage (hcon : f.Consistent) (he : f.Enumerates order)
    (h : Moment f order n visited left idom) :
    Stage f order (1 + visited.length) (parent idom) := by
  obtain ⟨htail, start, changed, hopen, hsweep⟩ := h
  obtain ⟨hsize, hstage, -⟩ := hopen.stage hcon he
  obtain ⟨idom', changed', hs, -, h'⟩ :=
    hstage.exists_sweep hcon he false hsize Nat.one_pos (List.drop_one.trans htail)
  cases hsweep.symm.trans hs
  exact h'

theorem Moment.isSome_parent (hcon : f.Consistent) (he : f.Enumerates order)
    (h : Moment f order n visited left idom) (hb : b ∈ visited) : (parent idom b).isSome := by
  have horder : order = (0 :: visited) ++ left := by
    rw [List.cons_append, ← h.1]
    exact he.eq_cons
  have hmem : b ∈ 0 :: visited := List.mem_cons_of_mem _ hb
  refine (h.stage hcon he).visited (horder ▸ List.mem_append_left _ hmem) ?_
  have hlt := List.idxOf_lt_length_of_mem hmem
  rw [horder, List.idxOf_append_of_mem hmem]
  rwa [List.length_cons, Nat.add_comm] at hlt

/-- What the next step of a sweep computes is not behind the parent that the block has. -/
theorem Moment.exists_meetPreds (hcon : f.Consistent) (he : f.Enumerates order)
    (h : Moment f order n visited (b :: left) idom) :
    ∃ blk u m, f.block b = .ok blk ∧
      meetPreds (numbering f.blocks.size order) idom (2 * f.blocks.size + 1) none blk.preds =
        .ok (some u) ∧
      (numbering f.blocks.size order)[u]? = some (some m) ∧
      ∀ c, parent idom b = some c →
        ∃ n, (numbering f.blocks.size order)[c]? = some (some n) ∧ m ≤ n := by
  have hstage := h.stage hcon he
  have hdrop : order.drop (1 + visited.length) = b :: left := by
    rw [← List.drop_drop, List.drop_one, h.1, List.drop_left]
  obtain ⟨hb, hb0, hidx, -⟩ := drop_eq_cons he (by omega) hdrop
  rw [← hidx] at hstage
  obtain ⟨blk, hblk, hget⟩ := Func.exists_block_eq_ok ((he.mem_iff.1 hb).lt_size hcon)
  obtain ⟨u, hmeet, hu⟩ := hstage.exists_isMeet hcon he hb hb0 hget
  refine ⟨blk, u, _, hblk, hmeet,
    getElem?_numbering hcon he (hstage.mem_of_isSome hu.isSome), fun c hc => ?_⟩
  exact ⟨_, getElem?_numbering hcon he (hstage.mem_of_isSome (hstage.isSome_parent hc)),
    hstage.idxOf_le (hstage.above_of_isMeet hb0 hu hc)⟩

/-- The last sweep is one that changes nothing. -/
theorem Opening.exists_last {fuel : Nat} (h : Opening f order n idom)
    (hsettle : settle f (numbering f.blocks.size order) order.tail fuel idom = .ok idom') :
    ∃ m start, Opening f order m start ∧
      sweep f (numbering f.blocks.size order) order.tail start false = .ok (idom', false) := by
  induction fuel generalizing n idom with
  | zero => cases hsettle
  | succ fuel ih =>
    obtain ⟨⟨idom₁, changed⟩, hsweep, hrest⟩ := Except.bind_eq_ok.1 hsettle
    cases changed with
    | true => exact ih (h.next hsweep) hrest
    | false =>
      obtain rfl := Except.pure_eq_ok.1 hrest
      exact ⟨n, idom, h, hsweep⟩

/-- Without blocks there is one sweep, over nothing. -/
theorem Moment.of_nil (hf : f.blocks.size = 0) (h : Moment f [] n visited left idom) :
    n = 1 ∧ visited = [] ∧ left = [] ∧ idom = #[] := by
  obtain ⟨htail, start, changed, hopen, hsweep⟩ := h
  obtain ⟨rfl, rfl⟩ := List.append_eq_nil_iff.1 htail.symm
  cases hsweep
  cases hopen with
  | first => exact ⟨rfl, rfl, rfl, by simp [hf]⟩
  | next _ hsweep => cases hsweep

theorem grounded_empty (f : Func) (number : Array (Option Nat)) : Grounded f number #[] :=
  ⟨fun h => by simp [parent] at h, fun h => by simp [parent] at h, fun h => by simp [parent] at h⟩

end Codegen.Dominators

namespace Codegen.Func

open Dominators

variable {f : Func}

/-- The loops that compute the dominators of a function that is built step by step end. At every
moment of the sweeps all walks up the table end, and what the next step computes is not behind the
parent that the block has. There are at most as many sweeps as the square of the number of blocks
and one more. Each of them gets over all blocks, and the last one leaves the table as it is. -/
theorem sweeps_end (h : f.Built) : ∃ d, f.dominators = .ok d ∧
    (∀ n visited left idom, Moment f d.order n visited left idom →
      n ≤ f.blocks.size * f.blocks.size + 1 ∧ Grounded f d.number idom ∧
      (∀ b ∈ visited, (parent idom b).isSome) ∧
      ∀ b rest, left = b :: rest → ∃ blk u m, f.block b = .ok blk ∧
        meetPreds d.number idom (2 * f.blocks.size + 1) none blk.preds = .ok (some u) ∧
        d.number[u]? = some (some m) ∧
        ∀ c, parent idom b = some c → ∃ n, d.number[c]? = some (some n) ∧ m ≤ n) ∧
    (∀ n idom visited left, Opening f d.order n idom → d.order.tail = visited ++ left →
      ∃ idom' changed, sweep f d.number visited idom false = .ok (idom', changed)) ∧
    (∃ n idom, Opening f d.order n idom ∧
      sweep f d.number d.order.tail idom false = .ok (d.idom, false)) ∧
    Grounded f d.number d.idom ∧ ∀ b, f.Reachable b → (parent d.idom b).isSome := by
  have hcon := h.consistent
  by_cases hf : 0 < f.blocks.size
  · obtain ⟨order, idom, he, hsettle, hd, hsize, hstage, hset⟩ := exists_settle hcon hf
    refine ⟨_, hd, fun n visited left idom hm => ⟨?_, (hm.stage hcon he).grounded hcon he, ?_, ?_⟩,
      fun n idom visited left hopen htail => ?_, Opening.first.exists_last hsettle,
      hstage.grounded hcon he, fun b hb => hstage.isSome_of_settled he hset (he.mem_iff.2 hb)⟩
    · obtain ⟨-, start, changed, hopen, -⟩ := hm
      have hle := (hopen.stage hcon he).2.2
      omega
    · exact fun b hb => hm.isSome_parent hcon he hb
    · rintro b rest rfl
      exact hm.exists_meetPreds hcon he
    · obtain ⟨hsize, hstage, -⟩ := hopen.stage hcon he
      obtain ⟨idom', changed, hs, -⟩ :=
        hstage.exists_sweep hcon he false hsize Nat.one_pos (List.drop_one.trans htail)
      exact ⟨idom', changed, hs⟩
  · have hempty : f.blocks.size = 0 := by omega
    have hstart : ((Array.replicate f.blocks.size none).setIfInBounds 0 (some 0) :
        Array (Option BlockId)) = #[] := by simp [hempty]
    refine ⟨_, dominators_of_size_eq_zero hempty, fun n visited left idom hm => ?_,
      fun n idom visited left _ htail => ?_, ⟨1, #[], hstart ▸ .first, rfl⟩, grounded_empty f _,
      fun b hb => absurd (hempty ▸ hb.lt_size hcon) (Nat.not_lt_zero b)⟩
    · obtain ⟨rfl, rfl, rfl, rfl⟩ := hm.of_nil hempty
      exact ⟨by omega, grounded_empty f _, by simp, by simp⟩
    · obtain ⟨rfl, rfl⟩ := List.append_eq_nil_iff.1 htail.symm
      exact ⟨idom, false, rfl⟩

/-- The second sweep over the sample function, when it has visited the loop. -/
theorem sweeps_end_sample : sample.Built ∧ ∃ d, sample.dominators = .ok d ∧
    ∃ idom, Moment sample d.order 2 [1] [2, 3] idom ∧
      2 ≤ sample.blocks.size * sample.blocks.size + 1 ∧ Grounded sample d.number idom := by
  have hdom : sample.dominators = .ok {
      order := [0, 1, 2, 3]
      number := #[some 0, some 1, some 2, some 3, none]
      idom := #[some 0, some 0, some 1, some 1, none] } := by decide +kernel
  have hopen : Opening sample [0, 1, 2, 3] 2 #[some 0, some 0, some 1, some 1, none] :=
    .next .first (by decide +kernel)
  have hmoment : Moment sample [0, 1, 2, 3] 2 [1] [2, 3] #[some 0, some 0, some 1, some 1, none] :=
    ⟨rfl, _, false, hopen, by decide +kernel⟩
  obtain ⟨d, hd, hall, -⟩ := sweeps_end built_sample
  obtain rfl := Except.ok.inj (hd.symm.trans hdom)
  obtain ⟨hle, hground, -⟩ := hall _ _ _ _ hmoment
  exact ⟨built_sample, _, hdom, _, hmoment, hle, hground⟩

end Codegen.Func
