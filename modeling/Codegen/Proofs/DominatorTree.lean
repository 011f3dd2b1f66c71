import Codegen.Func.Dominators
import Codegen.Proofs.Order

/-!
# Trees over an order of the blocks

While immediate dominators are computed, those known so far form a tree: the parent of a block comes
before it in the order, and the entry is its own parent. The paths from two blocks up to the entry
meet, and the meeting point has exactly the ancestors that the two blocks share. This is what
`Dominators.meet` computes, and what `Dominators.meetPreds` computes for a list of blocks.

## Main definitions

* `Dominators.parent`: the parent of a block in a table.
* `Dominators.Above`: the ancestors of a block, itself included.
* `Dominators.Tree`: the tables that are trees over an order.

## Main results

* `Dominators.join_numbering`: the numbers of the blocks are their positions in the order.
* `Dominators.Tree.exists_meet`, `Dominators.Tree.exists_meetPreds`: meeting points exist and have
  the shared ancestors.
* `Dominators.Tree.isAbove_iff`: the search for an ancestor is right.
-/

namespace Codegen.Dominators

variable {order : List BlockId} {idom : Array (Option BlockId)}
  {par : BlockId → Option BlockId} {a b c x : BlockId}

/-! ### Positions in an order -/

/-- The position of each block of an order, after some others were numbered. -/
private theorem getElem?_foldl_numbering {k : Nat} {number : Array (Option Nat)}
    (hn : order.Nodup) (hlt : ∀ b ∈ order, b < number.size) :
    (((List.range' k order.length).zip order).foldl (fun a (n, b) => a.setIfInBounds b (some n))
      number)[b]? = if b ∈ order then some (some (k + order.idxOf b)) else number[b]? := by
  induction order generalizing k number with
  | nil => simp
  | cons c order ih =>
    obtain ⟨hc, hn⟩ := List.nodup_cons.1 hn
    obtain ⟨hcl, hlt⟩ := List.forall_mem_cons.1 hlt
    simp only [List.length_cons, List.range'_succ, List.zip_cons_cons, List.foldl_cons]
    rw [ih hn (by simpa using hlt)]
    by_cases hbc : b = c
    · subst hbc
      simp [hc, hcl]
    · by_cases hb : b ∈ order
      · simp [hb, List.idxOf_cons_ne order (Ne.symm hbc)]
        omega
      · simp [hb, hbc, Array.getElem?_setIfInBounds_ne (Ne.symm hbc)]

/-- The number of a block is its position in the order. -/
theorem join_numbering {blocks : Nat} (hn : order.Nodup) (hlt : ∀ b ∈ order, b < blocks) :
    (numbering blocks order)[b]?.join = if b ∈ order then some (order.idxOf b) else none := by
  rw [numbering, List.range_eq_range', getElem?_foldl_numbering hn (by simpa using hlt)]
  split
  · simp
  · by_cases hb : b < blocks <;> simp [hb]

theorem idxOf_lt_of_sublist (hn : order.Nodup) (h : [a, b].Sublist order) :
    order.idxOf a < order.idxOf b := by
  induction order with
  | nil => simp at h
  | cons c order ih =>
    obtain ⟨hc, hn⟩ := List.nodup_cons.1 hn
    rcases List.sublist_cons_iff.1 h with h | ⟨r, hr, h⟩
    · have ha : c ≠ a := by rintro rfl; exact hc (h.subset (by simp))
      have hb : c ≠ b := by rintro rfl; exact hc (h.subset (by simp))
      rw [List.idxOf_cons_ne order ha, List.idxOf_cons_ne order hb]
      exact Nat.succ_lt_succ (ih hn h)
    · obtain ⟨rfl, rfl⟩ := List.cons.inj hr
      have hb : a ≠ b := by rintro rfl; exact hc (h.subset (by simp))
      simp [List.idxOf_cons_ne order hb]

theorem eq_of_idxOf_eq (ha : a ∈ order) (h : order.idxOf a = order.idxOf b) : a = b := by
  have hlt := List.idxOf_lt_length_of_mem ha
  have hb : order[order.idxOf b]? = some b := by
    have hlt : order.idxOf b < order.length := h ▸ hlt
    rw [List.getElem?_eq_getElem hlt, List.getElem_idxOf hlt]
  have ha : order[order.idxOf a]? = some a := by
    rw [List.getElem?_eq_getElem hlt, List.getElem_idxOf hlt]
  rw [h] at ha
  exact Option.some.inj (ha.symm.trans hb)

/-! ### Ancestors -/

/-- The parent of a block in a table. -/
def parent (idom : Array (Option BlockId)) (b : BlockId) : Option BlockId := idom[b]?.join

theorem join_eq_parent : idom[b]?.join = parent idom b := rfl

/-- Whether `a` is met on the way from a block up to the root, the block itself included. -/
inductive Above (par : BlockId → Option BlockId) (a : BlockId) : BlockId → Prop
  | refl : Above par a a
  | up {b c : BlockId} (hb : par b = some c) (h : Above par a c) : Above par a b

theorem Above.trans (hab : Above par a b) (hbc : Above par b c) : Above par a c := by
  induction hbc with
  | refl => exact hab
  | up hb _ ih => exact ih.up hb

/-- Another block above a block is above its parent. -/
theorem Above.of_ne (h : Above par a b) (hab : a ≠ b) (hb : par b = some c) : Above par a c := by
  cases h with
  | refl => exact absurd rfl hab
  | up hb' h =>
    obtain rfl := Option.some.inj (hb'.symm.trans hb)
    exact h

theorem above_iff (hb : par b = some c) : Above par a b ↔ a = b ∨ Above par a c := by
  refine ⟨fun h => ?_, fun h => ?_⟩
  · by_cases hab : a = b
    · exact .inl hab
    · exact .inr (h.of_ne hab hb)
  · rcases h with rfl | h
    · exact .refl
    · exact h.up hb

/-- Only the root is above the root. -/
theorem above_root_iff {r : BlockId} (hr : par r = some r) : Above par a r ↔ a = r := by
  refine ⟨fun h => ?_, fun h => h ▸ .refl⟩
  generalize he : r = b at h
  induction h with
  | refl => rfl
  | up hb _ ih =>
    subst he
    have hc := Option.some.inj (hr.symm.trans hb)
    exact (ih hc).trans hc.symm

/-- Of two blocks above a third one is above the other. -/
theorem Above.total (ha : Above par a c) (hb : Above par b c) : Above par a b ∨ Above par b a := by
  induction ha with
  | refl => exact .inr hb
  | @up d e hc h ih =>
    by_cases hbd : b = d
    · exact .inl (hbd ▸ h.up hc)
    · exact ih (hb.of_ne hbd hc)

/-- A table in which the entry is its own parent and the parent of any other block is a block that
comes before it and has a parent. -/
structure Tree (order : List BlockId) (par : BlockId → Option BlockId) : Prop where
  root : par 0 = some 0
  mem : ∀ {b c : BlockId}, par b = some c → b ∈ order
  isSome_parent : ∀ {b c : BlockId}, par b = some c → (par c).isSome
  lt : ∀ {b c : BlockId}, par b = some c → b ≠ 0 → order.idxOf c < order.idxOf b

namespace Tree

theorem mem_of_isSome (h : Tree order par) (hb : (par b).isSome) : b ∈ order := by
  obtain ⟨c, hc⟩ := Option.isSome_iff_exists.1 hb
  exact h.mem hc

theorem isSome_of_above (h : Tree order par) (hb : (par b).isSome) (ha : Above par a b) :
    (par a).isSome := by
  induction ha with
  | refl => exact hb
  | up hb' _ ih => exact ih (h.isSome_parent hb')

theorem idxOf_le (h : Tree order par) (ha : Above par a b) : order.idxOf a ≤ order.idxOf b := by
  induction ha with
  | refl => exact Nat.le_refl _
  | @up b c hb _ ih =>
    by_cases h0 : b = 0
    · subst h0
      obtain rfl := Option.some.inj (h.root.symm.trans hb)
      exact ih
    · exact Nat.le_trans ih (Nat.le_of_lt (h.lt hb h0))

theorem antisymm (h : Tree order par) (hb : (par b).isSome) (hab : Above par a b)
    (hba : Above par b a) : a = b :=
  (eq_of_idxOf_eq (h.mem_of_isSome hb)
    (Nat.le_antisymm (h.idxOf_le hba) (h.idxOf_le hab))).symm

/-- An induction over the blocks of a tree from the entry on. -/
theorem induction (h : Tree order par) {P : BlockId → Prop} (root : P 0)
    (step : ∀ b c, par b = some c → b ≠ 0 → P c → P b) (hb : (par b).isSome) : P b := by
  induction hn : order.idxOf b using Nat.strongRecOn generalizing b with
  | _ n ih =>
    obtain ⟨c, hc⟩ := Option.isSome_iff_exists.1 hb
    by_cases h0 : b = 0
    · exact h0 ▸ root
    · exact step b c hc h0 (ih _ (hn ▸ h.lt hc h0) (h.isSome_parent hc) rfl)

theorem entry_above (h : Tree order par) (hb : (par b).isSome) : Above par 0 b :=
  h.induction .refl (fun _ _ hc _ h => h.up hc) hb

/-! ### Meeting points -/

/-- Of two blocks the later one may be replaced by its parent. -/
theorem above_and_above_iff (h : Tree order par) (hlt : order.idxOf b < order.idxOf a)
    (ha : par a = some c) : Above par x c ∧ Above par x b ↔ Above par x a ∧ Above par x b := by
  refine and_congr_left fun hxb => ⟨fun hxc => hxc.up ha, fun hxa => hxa.of_ne ?_ ha⟩
  rintro rfl
  have := h.idxOf_le hxb
  omega

variable {number : Array (Option Nat)} {u : Option BlockId}

theorem exists_meet (h : Tree order (parent idom))
    (hnum : ∀ b ∈ order, number[b]?.join = some (order.idxOf b)) (fuel : Nat)
    (ha : (parent idom a).isSome) (hb : (parent idom b).isSome)
    (hfuel : order.idxOf a + order.idxOf b < fuel) :
    ∃ u, meet number idom fuel a b = .ok u ∧ (parent idom u).isSome ∧
      ∀ x, Above (parent idom) x u ↔ Above (parent idom) x a ∧ Above (parent idom) x b := by
  induction fuel generalizing a b with
  | zero => omega
  | succ fuel ih =>
    by_cases hab : a = b
    · subst hab
      exact ⟨a, by simp [meet], ha, by simp⟩
    have hna := hnum a (h.mem_of_isSome ha)
    have hnb := hnum b (h.mem_of_isSome hb)
    have hra := h.idxOf_le (h.entry_above ha)
    have hrb := h.idxOf_le (h.entry_above hb)
    rw [meet, if_neg hab, hna, hnb]
    by_cases hlt : order.idxOf b < order.idxOf a
    · obtain ⟨c, hc⟩ := Option.isSome_iff_exists.1 ha
      have hca := h.lt hc (by rintro rfl; omega)
      obtain ⟨u, hu, hus, habove⟩ := ih (h.isSome_parent hc) hb (by omega)
      refine ⟨u, ?_, hus, fun x => (habove x).trans (h.above_and_above_iff hlt hc)⟩
      simp only [hlt, if_true, join_eq_parent, hc]
      exact hu
    · have hne : order.idxOf a ≠ order.idxOf b := fun he =>
        hab (eq_of_idxOf_eq (h.mem_of_isSome ha) he)
      obtain ⟨c, hc⟩ := Option.isSome_iff_exists.1 hb
      have hcb := h.lt hc (by rintro rfl; omega)
      obtain ⟨u, hu, hus, habove⟩ := ih ha (h.isSome_parent hc) (by omega)
      refine ⟨u, ?_, hus, fun x => (habove x).trans ?_⟩
      · simp only [hlt, if_false, join_eq_parent, hc]
        exact hu
      · rw [and_comm, h.above_and_above_iff (by omega) hc, and_comm]

/-- The meeting point of those blocks of a list that are in the tree. -/
theorem exists_meetPreds (h : Tree order (parent idom))
    (hnum : ∀ b ∈ order, number[b]?.join = some (order.idxOf b)) (fuel : Nat)
    (hfuel : 2 * order.length < fuel + 1) (ps : List BlockId)
    (hu : ∀ v ∈ u, (parent idom v).isSome) :
    ∃ r, meetPreds number idom fuel u ps = .ok r ∧
      (r = none → u = none ∧ ∀ p ∈ ps, parent idom p = none) ∧
      ∀ v ∈ r, (parent idom v).isSome ∧ ∀ x, Above (parent idom) x v ↔
        (∀ w ∈ u, Above (parent idom) x w) ∧
        ∀ p ∈ ps, (parent idom p).isSome → Above (parent idom) x p := by
  induction ps generalizing u with
  | nil =>
    exact ⟨u, rfl, by simp, fun v hv => ⟨hu v hv, fun x => by cases hv; simp⟩⟩
  | cons p ps ih =>
    cases hp : parent idom p with
    | none =>
      simp only [meetPreds, join_eq_parent, hp]
      obtain ⟨r, hr, hnone, hsome⟩ := ih hu
      refine ⟨r, hr, by simpa [hp] using hnone, fun v hv => ?_⟩
      simpa [hp] using hsome v hv
    | some c =>
      have hps : (parent idom p).isSome := by simp [hp]
      cases u with
      | none =>
        simp only [meetPreds, join_eq_parent, hp]
        obtain ⟨r, hr, hnone, hsome⟩ := ih (u := some p) (by simpa using hps)
        refine ⟨r, hr, fun h => absurd (hnone h).1 (by simp), fun v hv => ?_⟩
        simpa [hp] using hsome v hv
      | some w =>
        simp only [meetPreds, join_eq_parent, hp]
        have hw := hu w rfl
        have hlw := List.idxOf_lt_length_of_mem (h.mem_of_isSome hw)
        have hlp := List.idxOf_lt_length_of_mem (h.mem_of_isSome hps)
        obtain ⟨m, hm, hms, hmeet⟩ := h.exists_meet hnum fuel hw hps (by omega)
        obtain ⟨r, hr, hnone, hsome⟩ := ih (u := some m) (by simpa using hms)
        refine ⟨r, Except.bind_eq_ok.2 ⟨m, hm, hr⟩, fun h => absurd (hnone h).1 (by simp),
          fun v hv => ?_⟩
        refine ⟨(hsome v hv).1, fun x => ((hsome v hv).2 x).trans ?_⟩
        simp [hmeet, hp, and_assoc]

/-- The search for an ancestor finds it. -/
theorem isAbove_iff (h : Tree order (parent idom)) {fuel : Nat} (hb : (parent idom b).isSome)
    (hfuel : order.idxOf b < fuel) : isAbove idom a fuel b = true ↔ Above (parent idom) a b := by
  induction fuel generalizing b with
  | zero => omega
  | succ fuel ih =>
    rw [isAbove]
    by_cases hab : a = b
    · simp [hab, Above.refl]
    obtain ⟨c, hc⟩ := Option.isSome_iff_exists.1 hb
    simp only [hab, if_false, join_eq_parent, hc]
    by_cases h0 : b = 0
    · subst h0
      obtain rfl := Option.some.inj (h.root.symm.trans hc)
      simp [above_root_iff hc, hab]
    · have hlt := h.lt hc h0
      rw [if_neg (by rintro rfl; omega), ih (h.isSome_parent hc) (by omega)]
      exact ⟨fun ha => ha.up hc, fun ha => ha.of_ne hab hc⟩

end Tree

end Codegen.Dominators
