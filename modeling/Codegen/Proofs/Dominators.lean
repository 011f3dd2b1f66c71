import Codegen.Proofs.DominatorTree

/-!
# The computation of dominators is correct

A sweep visits the blocks in order and gives each one the meeting point of its known predecessors as
its parent. Four facts about the tree survive every change of a parent: the blocks that are known
are closed downwards in the order, the strict dominators of a block dominate its parent, the
ancestors that the known predecessors of a block share are above its parent, and what is above the
parent of a block is above each predecessor that comes earlier in the order. During a sweep the last
fact can fail for the blocks still to be visited; there it holds only of ancestors that are to be
visited as well. The facts need no more of the order than that every block stands behind one of its
predecessors.

A parent only moves up, so the sweeps end. Then every parent is the meeting point of the
predecessors, and the ancestors of a block are its dominators.

## Main definitions

* `Dominators.IsMeet`: meeting points of the predecessors of a block.
* `Dominators.Stage`: the invariant of the sweeps.
* `Dominators.Correct`: what correct dominators are, in terms of paths.

## Main results

* `Dominators.Stage.setParent`, `Dominators.Stage.visit`: the invariant survives a step of a sweep.
* `Dominators.Stage.settle`: the sweeps end.
* `Func.exists_dominators`: the dominators of a consistent function exist and are correct.
* `Func.dominators_correct`: the same for every function that is built step by step.
-/

namespace Codegen.Dominators

variable {f : Func} {order : List BlockId} {idom : Array (Option BlockId)}
  {par : BlockId → Option BlockId} {a b c p q u x y : BlockId} {k : Nat}

/-! ### Changing a parent -/

/-- Gives a block another parent. -/
def setParent (par : BlockId → Option BlockId) (b u : BlockId) : BlockId → Option BlockId :=
  fun x => if x = b then some u else par x

@[simp] theorem setParent_self : setParent par b u b = some u := by simp [setParent]

theorem setParent_of_ne (h : y ≠ b) : setParent par b u y = par y := by simp [setParent, h]

theorem isSome_setParent : (setParent par b u y).isSome ↔ y = b ∨ (par y).isSome := by
  unfold setParent
  split <;> simp [*]

theorem parent_setIfInBounds (hb : b < idom.size) :
    parent (idom.setIfInBounds b (some u)) = setParent (parent idom) b u := by
  funext x
  unfold parent setParent
  split
  · next h => simp [h, hb]
  · next h => rw [Array.getElem?_setIfInBounds_ne (Ne.symm h)]

/-- Blocks before the one that changes keep their ancestors. -/
theorem Tree.above_setParent_of_lt (h : Tree order par) (hy : (par y).isSome) :
    order.idxOf y < order.idxOf b → (Above (setParent par b u) x y ↔ Above par x y) := by
  refine h.induction (P := fun y => order.idxOf y < order.idxOf b →
    (Above (setParent par b u) x y ↔ Above par x y)) (fun hlt => ?_) (fun y c hc h0 ih hlt => ?_) hy
  · have h0 : setParent par b u 0 = some 0 := by
      rw [setParent_of_ne (by rintro rfl; omega), h.root]
    rw [above_root_iff h0, above_root_iff h.root]
  · have hc' : setParent par b u y = some c := by
      rw [setParent_of_ne (by rintro rfl; omega), hc]
    rw [above_iff hc', above_iff hc, ih (Nat.lt_trans (h.lt hc h0) hlt)]

/-- Every other block keeps its parent. -/
theorem setParent_cases (h : setParent par b u y = some c) :
    y = b ∧ c = u ∨ y ≠ b ∧ par y = some c := by
  by_cases hyb : y = b
  · subst hyb
    exact .inl ⟨rfl, (Option.some.inj (setParent_self.symm.trans h)).symm⟩
  · exact .inr ⟨hyb, (setParent_of_ne hyb).symm.trans h⟩

/-- A block may move below any known block that comes before it. -/
theorem Tree.move (h : Tree order par) (hb : b ∈ order) (hb0 : b ≠ 0) (hu : (par u).isSome)
    (hub : order.idxOf u < order.idxOf b) : Tree order (setParent par b u) where
  root := by rw [setParent_of_ne (Ne.symm hb0), h.root]
  mem {y c} hy := by
    rcases setParent_cases hy with ⟨rfl, rfl⟩ | ⟨-, hy⟩
    · exact hb
    · exact h.mem hy
  isSome_parent {y c} hy := by
    rcases setParent_cases hy with ⟨rfl, rfl⟩ | ⟨-, hy⟩
    · exact isSome_setParent.2 (.inr hu)
    · exact isSome_setParent.2 (.inr (h.isSome_parent hy))
  lt {y c} hy hy0 := by
    rcases setParent_cases hy with ⟨rfl, rfl⟩ | ⟨-, hy⟩
    · exact hub
    · exact h.lt hy hy0

/-- When a block moves from below `c` to below a block `u` above `c`, the ancestors of a block below
it are those that are not between the two. -/
theorem Tree.above_setParent_iff (h : Tree order par) (hb0 : b ≠ 0) (hu : (par u).isSome)
    (hub : order.idxOf u < order.idxOf b) (hc : ∀ c, par b = some c → Above par u c)
    (hy : (par y).isSome) : Above (setParent par b u) x y ↔
      Above par x y ∧ (Above par b y → Above par b x ∨ Above par x u) := by
  refine h.induction (P := fun y => Above (setParent par b u) x y ↔
    Above par x y ∧ (Above par b y → Above par b x ∨ Above par x u)) ?_ (fun y d hd h0 ih => ?_) hy
  · have h0 : setParent par b u 0 = some 0 := by rw [setParent_of_ne (Ne.symm hb0), h.root]
    simp [above_root_iff h0, above_root_iff h.root, hb0]
  · by_cases hyb : y = b
    · subst hyb
      rw [above_iff setParent_self, h.above_setParent_of_lt hu hub]
      refine ⟨fun hx => ?_, fun ⟨hxy, hx⟩ => ?_⟩
      · rcases hx with rfl | hx
        · exact ⟨.refl, fun _ => .inl .refl⟩
        · exact ⟨(hx.trans (hc d hd)).up hd, fun _ => .inr hx⟩
      · exact (hx .refl).imp_left fun hyx => h.antisymm (by simp [hd]) hxy hyx
    · have hd' : setParent par b u y = some d := by rw [setParent_of_ne hyb, hd]
      rw [above_iff hd', ih, above_iff hd, above_iff (a := b) hd]
      refine ⟨fun hx => ?_, fun ⟨hxy, hx⟩ => ?_⟩
      · rcases hx with rfl | ⟨hxd, hx⟩
        · exact ⟨.inl rfl, fun hby => .inl ((above_iff hd).2 hby)⟩
        · exact ⟨.inr hxd, fun hby => hx (hby.resolve_left (Ne.symm hyb))⟩
      · exact hxy.imp_right fun hxd => ⟨hxd, fun hbd => hx (.inr hbd)⟩

/-! ### The invariant of the sweeps -/

/-- A block has the ancestors that the known predecessors of another block share. -/
structure IsMeet (f : Func) (par : BlockId → Option BlockId) (b u : BlockId) : Prop where
  isSome : (par u).isSome
  above_iff : ∀ {x}, Above par x u ↔ ∀ p ∈ f.predsOf b, (par p).isSome → Above par x p

/-- The tree when the next block to be visited by a sweep is the one at position `k`. -/
structure Stage (f : Func) (order : List BlockId) (k : Nat) (par : BlockId → Option BlockId) : Prop
    extends Tree order par where
  /-- The blocks that were visited are known. -/
  visited : ∀ {b}, b ∈ order → order.idxOf b < k → (par b).isSome
  /-- The blocks before a known block are known. -/
  closed : ∀ {a b}, (par b).isSome → a ∈ order → order.idxOf a < order.idxOf b → (par a).isSome
  /-- The strict dominators of a block dominate its parent. -/
  dominates : ∀ {a b c}, par b = some c → b ≠ 0 → f.StrictlyDominates a b → f.Dominates a c
  /-- What is above all known predecessors of a block is above its parent. -/
  above_parent : ∀ {b c x}, par b = some c → b ≠ 0 →
    (∀ p ∈ f.predsOf b, (par p).isSome → Above par x p) → Above par x c
  /-- What is above the parent of a block is above every predecessor that comes before the block. Of
  a block still to be visited this is said only of ancestors still to be visited. -/
  above_pred : ∀ {b c q x}, par b = some c → b ≠ 0 → q ∈ f.predsOf b →
    order.idxOf q < order.idxOf b → order.idxOf b < k ∨ k ≤ order.idxOf x →
    Above par x c → Above par x q

/-- Every block but the entry has a predecessor that comes before it. -/
theorem exists_pred (he : f.Enumerates order) (hc : f.Consistent)
    (hb : b ∈ order) (h0 : b ≠ 0) :
    ∃ q ∈ f.predsOf b, q ∈ order ∧ order.idxOf q < order.idxOf b := by
  obtain ⟨q, hq, hsub⟩ := he.pred hb h0
  exact ⟨q, hc.edges.mem_predsOf.2 hq, hsub.subset (by simp), idxOf_lt_of_sublist he.nodup hsub⟩

namespace Stage

/-- The dominators of a block are above it. -/
theorem above_of_dominates (h : Stage f order k par) (hf : 0 < f.blocks.size) (hb : (par b).isSome)
    (hab : f.Dominates a b) : Above par a b := by
  refine h.induction (P := fun b => f.Dominates a b → Above par a b) (fun ha => ?_)
    (fun b c hc h0 ih ha => ?_) hb hab
  · exact ha.eq_entry hf ▸ .refl
  · rcases ha.eq_or_strictly with rfl | ha
    · exact .refl
    · exact (ih (h.dominates hc h0 ha)).up hc

/-- A dominator of a block dominates the blocks between the two in the tree. -/
theorem dominates_of_above (h : Stage f order k par) (hf : 0 < f.blocks.size)
    (hb : (par b).isSome) (hub : Above par u b) (hab : f.Dominates a b) (hau : Above par a u) :
    f.Dominates a u := by
  induction hub with
  | refl => exact hab
  | @up b c hc huc ih =>
    rcases hab.eq_or_strictly with rfl | hs
    · exact h.antisymm (h.isSome_of_above hb (huc.up hc)) hau (huc.up hc) ▸ .refl f a
    · by_cases h0 : b = 0
      · subst h0
        exact absurd (hab.eq_entry hf) hs.2
      · exact ih (h.isSome_parent hc) (h.dominates hc h0 hs)

/-- A meeting point of the predecessors comes before the block. -/
theorem idxOf_meet_lt (h : Stage f order k par) (hu : IsMeet f par b u) (hq : q ∈ f.predsOf b)
    (hqs : (par q).isSome) (hqb : order.idxOf q < order.idxOf b) :
    order.idxOf u < order.idxOf b :=
  Nat.lt_of_le_of_lt (h.idxOf_le (hu.above_iff.1 .refl q hq hqs)) hqb

/-- The parent that a sweep gives to a block is above the one that it had. -/
theorem above_of_isMeet (h : Stage f order k par) (hb0 : b ≠ 0) (hu : IsMeet f par b u)
    (hc : par b = some c) : Above par u c :=
  h.above_parent hc hb0 fun p hp hps => hu.above_iff.1 .refl p hp hps

/-- The strict dominators of a block dominate the parent that a sweep gives to it. -/
theorem dominates_isMeet (h : Stage f order k par) (hcon : f.Consistent) (hf : 0 < f.blocks.size)
    (hu : IsMeet f par b u) (hq : q ∈ f.predsOf b) (hqs : (par q).isSome)
    (ha : f.StrictlyDominates a b) : f.Dominates a u := by
  have hpred : ∀ p ∈ f.predsOf b, f.Dominates a p := fun p hp =>
    ha.of_edge (hcon.edges.mem_predsOf.1 hp)
  have hau : Above par a u :=
    hu.above_iff.2 fun p hp hps => h.above_of_dominates hf hps (hpred p hp)
  exact h.dominates_of_above hf hqs (hu.above_iff.1 .refl q hq hqs) (hpred q hq) hau

section SetParent

variable (h : Stage f order (order.idxOf b) par) (hb0 : b ≠ 0) (hu : IsMeet f par b u)
  (hub : order.idxOf u < order.idxOf b)

include h hb0 hu hub

theorem above_setParent (hy : (par y).isSome) : Above (Dominators.setParent par b u) x y ↔
    Above par x y ∧ (Above par b y → Above par b x ∨ Above par x u) :=
  h.above_setParent_iff hb0 hu.isSome hub (fun _ hc => h.above_of_isMeet hb0 hu hc) hy

/-- After a step of a sweep, what is above all known predecessors of a block is above its parent. -/
theorem above_parent_setParent (hcon : f.Consistent) (he : f.Enumerates order)
    (hy : Dominators.setParent par b u y = some c) (hy0 : y ≠ 0)
    (hx : ∀ p ∈ f.predsOf y, (Dominators.setParent par b u p).isSome →
      Above (Dominators.setParent par b u) x p) :
    Above (Dominators.setParent par b u) x c := by
  have hold {p : BlockId} (hp : p ∈ f.predsOf y) (hps : (par p).isSome) :=
    (h.above_setParent hb0 hu hub hps).1 (hx p hp (isSome_setParent.2 (.inr hps)))
  rcases setParent_cases hy with ⟨rfl, rfl⟩ | ⟨hyb, hy⟩
  · rw [h.above_setParent_of_lt hu.isSome hub]
    exact hu.above_iff.2 fun p hp hps => (hold hp hps).1
  · refine (h.above_setParent hb0 hu hub (h.isSome_parent hy)).2
      ⟨h.above_parent hy hy0 fun p hp hps => (hold hp hps).1, fun hbc => ?_⟩
    -- What is above the parent is above an earlier predecessor, and with it the changed block.
    obtain ⟨p, hp, hpo, hpy⟩ := exists_pred he hcon (h.mem hy) hy0
    have hps := h.closed (by simp [hy]) hpo hpy
    exact (hold hp hps).2 (h.above_pred hy hy0 hp hpy (.inr (Nat.le_refl _)) hbc)

/-- After a step of a sweep, what is above the parent of a block is above its earlier
predecessors. -/
theorem above_pred_setParent (hy : Dominators.setParent par b u y = some c) (hy0 : y ≠ 0)
    (hp : p ∈ f.predsOf y) (hpy : order.idxOf p < order.idxOf y)
    (hk : order.idxOf y < order.idxOf b + 1 ∨ order.idxOf b + 1 ≤ order.idxOf x)
    (hx : Above (Dominators.setParent par b u) x c) :
    Above (Dominators.setParent par b u) x p := by
  have hpo : p ∈ order :=
    List.idxOf_lt_length_iff.1 (Nat.lt_of_lt_of_le hpy List.idxOf_le_length)
  rcases setParent_cases hy with ⟨rfl, rfl⟩ | ⟨hyb, hy⟩
  · have hps := h.visited hpo hpy
    rw [h.above_setParent_of_lt hu.isSome hub] at hx
    rw [h.above_setParent_of_lt hps hpy]
    exact hu.above_iff.1 hx p hp hps
  · have hps := h.closed (by simp [hy]) hpo hpy
    have hne : order.idxOf y ≠ order.idxOf b := fun he => hyb (eq_of_idxOf_eq (h.mem hy) he)
    have hxc := ((h.above_setParent hb0 hu hub (h.isSome_parent hy)).1 hx).1
    have hxp := h.above_pred hy hy0 hp hpy (by omega) hxc
    refine (h.above_setParent hb0 hu hub hps).2 ⟨hxp, fun hbp => ?_⟩
    have hbp' := h.idxOf_le hbp
    rcases hbp.total hxp with hbx | hxb
    · exact .inl hbx
    · have := h.idxOf_le hxb
      omega

end SetParent

/-- A step of a sweep keeps the invariant. -/
theorem setParent (h : Stage f order (order.idxOf b) par) (hcon : f.Consistent)
    (he : f.Enumerates order) (hb : b ∈ order) (hb0 : b ≠ 0) (hu : IsMeet f par b u) :
    Stage f order (order.idxOf b + 1) (setParent par b u) := by
  have hf : 0 < f.blocks.size := (he.mem_iff.1 he.entry_mem).lt_size hcon
  obtain ⟨q, hq, hqo, hqb⟩ := exists_pred he hcon hb hb0
  have hqs := h.visited hqo hqb
  have hub := h.idxOf_meet_lt hu hq hqs hqb
  refine {
    toTree := h.toTree.move hb hb0 hu.isSome hub
    visited := fun {y} hy hyk => ?_
    closed := fun {a y} hy ha hay => ?_
    dominates := fun {a y c} hy hy0 ha => ?_
    above_parent := fun hy hy0 hx => h.above_parent_setParent hb0 hu hub hcon he hy hy0 hx
    above_pred := fun hy hy0 hp hpy hk hx => h.above_pred_setParent hb0 hu hub hy hy0 hp hpy hk hx }
  · by_cases hyb : y = b
    · exact isSome_setParent.2 (.inl hyb)
    · have hne : order.idxOf y ≠ order.idxOf b := fun he => hyb (eq_of_idxOf_eq hy he)
      exact isSome_setParent.2 (.inr (h.visited hy (by omega)))
  · rcases isSome_setParent.1 hy with rfl | hy
    · exact isSome_setParent.2 (.inr (h.visited ha hay))
    · exact isSome_setParent.2 (.inr (h.closed hy ha hay))
  · rcases setParent_cases hy with ⟨rfl, rfl⟩ | ⟨-, hy⟩
    · exact h.dominates_isMeet hcon hf hu hq hqs ha
    · exact h.dominates hy hy0 ha

/-- A step of a sweep that changes nothing keeps the invariant. -/
theorem advance (h : Stage f order (order.idxOf b) par) (hu : IsMeet f par b u)
    (hbu : par b = some u) : Stage f order (order.idxOf b + 1) par := by
  refine { h with
    visited := fun {y} hy hyk => ?_
    above_pred := fun {y c p x} hy hy0 hp hpy hk hx => ?_ }
  · by_cases hyb : order.idxOf y = order.idxOf b
    · obtain rfl := eq_of_idxOf_eq hy hyb
      simp [hbu]
    · exact h.visited hy (by omega)
  · by_cases hyb : order.idxOf y = order.idxOf b
    · obtain rfl := eq_of_idxOf_eq (h.mem hy) hyb
      obtain rfl := Option.some.inj (hy.symm.trans hbu)
      have hpo : p ∈ order :=
        List.idxOf_lt_length_iff.1 (Nat.lt_of_lt_of_le hpy List.idxOf_le_length)
      exact hu.above_iff.1 hx p hp (h.visited hpo hpy)
    · exact h.above_pred hy hy0 hp hpy (by omega) hx

/-- When all blocks were visited, the next sweep may start. -/
theorem restart (h : Stage f order k par) (hk : order.length ≤ k) (l : Nat) :
    Stage f order l par := by
  have hvisited {y : BlockId} (hy : y ∈ order) : order.idxOf y < k :=
    Nat.lt_of_lt_of_le (List.idxOf_lt_length_of_mem hy) hk
  exact { h with
    visited := fun hy _ => h.visited hy (hvisited hy)
    above_pred := fun hy hy0 hp hpy _ hx =>
      h.above_pred hy hy0 hp hpy (.inl (hvisited (h.mem hy))) hx }

end Stage

/-! ### Sweeps -/

theorem length_le_size (hcon : f.Consistent) (he : f.Enumerates order) :
    order.length ≤ f.blocks.size := by
  have hsub : order ⊆ List.range f.blocks.size := fun b hb =>
    List.mem_range.2 ((he.mem_iff.1 hb).lt_size hcon)
  simpa using (List.subperm_of_subset he.nodup hsub).length_le

/-- What a sweep computes for a block is a meeting point of its predecessors. -/
theorem Stage.exists_isMeet {blk : Block} (h : Stage f order (order.idxOf b) (parent idom))
    (hcon : f.Consistent) (he : f.Enumerates order) (hb : b ∈ order) (hb0 : b ≠ 0)
    (hblk : f.blocks[b]? = some blk) :
    ∃ u, meetPreds (numbering f.blocks.size order) idom (2 * f.blocks.size + 1) none blk.preds =
      .ok (some u) ∧ IsMeet f (parent idom) b u := by
  have hlen := length_le_size hcon he
  have hnum : ∀ b ∈ order, (numbering f.blocks.size order)[b]?.join = some (order.idxOf b) := by
    intro b hb
    rw [join_numbering he.nodup fun b hb => (he.mem_iff.1 hb).lt_size hcon, if_pos hb]
  obtain ⟨r, hr, hnone, hsome⟩ := h.exists_meetPreds hnum (u := none)
    (2 * f.blocks.size + 1) (by omega) blk.preds (by simp)
  rw [← Func.preds_eq_predsOf hblk] at hnone hsome
  cases r with
  | none =>
    obtain ⟨q, hq, hqo, hqb⟩ := exists_pred he hcon hb hb0
    have hqs := h.visited hqo hqb
    rw [(hnone rfl).2 q hq] at hqs
    cases hqs
  | some u =>
    obtain ⟨hu, habove⟩ := hsome u rfl
    exact ⟨u, hr, hu, fun {x} => by simp [habove]⟩

/-- A measure of how far the parents are from the entry; it falls with every change. -/
def cost (order : List BlockId) (idom : Array (Option BlockId)) : Nat :=
  (idom.toList.map fun p => p.elim order.length order.idxOf).sum

theorem Stage.cost_lt (h : Stage f order k (parent idom)) (hb : b < idom.size) (hb0 : b ≠ 0)
    (hu : IsMeet f (parent idom) b u) (hbu : parent idom b ≠ some u) :
    cost order (idom.setIfInBounds b (some u)) < cost order idom := by
  obtain ⟨o, ho⟩ : ∃ o, idom[b]? = some o := ⟨idom[b], Array.getElem?_eq_getElem hb⟩
  have hset := Func.sum_map_set (fun p : Option BlockId => p.elim order.length order.idxOf)
    (l := idom.toList) (n := b) (y := some u) (by simpa using ho)
  have hlt : order.idxOf u < o.elim order.length order.idxOf := by
    have hpar : parent idom b = o := by simp [parent, ho]
    cases o with
    | none => exact List.idxOf_lt_length_of_mem (h.mem_of_isSome hu.isSome)
    | some c =>
      have huc := h.above_of_isMeet hb0 hu hpar
      have hne : order.idxOf u ≠ order.idxOf c := fun he => by
        obtain rfl := eq_of_idxOf_eq (h.mem_of_isSome hu.isSome) he
        exact hbu hpar
      have := h.idxOf_le huc
      simp only [Option.elim_some]
      omega
  simp only [Option.elim_some] at hset
  simp only [cost, Array.toList_setIfInBounds]
  omega

/-- Every block but the entry has the meeting point of its predecessors as its parent. -/
def Settled (f : Func) (par : BlockId → Option BlockId) (bs : List BlockId) : Prop :=
  ∀ b ∈ bs, ∃ u, par b = some u ∧ IsMeet f par b u

/-- The next block of a sweep that is past the entry. -/
theorem drop_eq_cons (he : f.Enumerates order) {bs : List BlockId} (hk : 0 < k)
    (h : order.drop k = b :: bs) :
    b ∈ order ∧ b ≠ 0 ∧ order.idxOf b = k ∧ order.drop (k + 1) = bs := by
  have hlt : k < order.length := by
    by_contra hle
    rw [List.drop_eq_nil_of_le (Nat.le_of_not_lt hle)] at h
    cases h
  rw [List.drop_eq_getElem_cons hlt] at h
  obtain ⟨hb, hbs⟩ := List.cons.inj h
  have hidx : order.idxOf b = k := by rw [← hb, he.nodup.idxOf_getElem]
  refine ⟨hb ▸ List.getElem_mem hlt, ?_, hidx, hbs⟩
  rintro rfl
  rw [he.eq_cons, List.idxOf_cons_self] at hidx
  omega

theorem sweep_cons {number : Array (Option Nat)} {blk : Block} {bs : List BlockId} {changed : Bool}
    (hblk : f.block b = .ok blk)
    (hmeet : meetPreds number idom (2 * f.blocks.size + 1) none blk.preds = .ok (some u)) :
    sweep f number (b :: bs) idom changed =
      if parent idom b = some u then sweep f number bs idom changed
      else sweep f number bs (idom.setIfInBounds b (some u)) true := by
  rw [sweep, hblk]
  change (meetPreds _ _ _ _ _ >>= _) = _
  rw [hmeet]
  rfl

/-- A step of a sweep keeps the invariant and makes the cost smaller unless it changes nothing. -/
theorem Stage.visit (hcon : f.Consistent) (he : f.Enumerates order) {bs : List BlockId}
    (changed : Bool) (hsize : idom.size = f.blocks.size) (hk : 0 < k)
    (hbs : order.drop k = b :: bs) (h : Stage f order k (parent idom)) :
    ∃ idom' changed', (∀ bs', Dominators.sweep f (numbering f.blocks.size order) (b :: bs') idom
        changed = Dominators.sweep f (numbering f.blocks.size order) bs' idom' changed') ∧
      idom'.size = f.blocks.size ∧ Stage f order (k + 1) (parent idom') ∧
      (idom' = idom ∧ changed' = changed ∧
          (∃ u, parent idom b = some u ∧ IsMeet f (parent idom) b u) ∨
        cost order idom' < cost order idom ∧ changed' = true) := by
  obtain ⟨hb, hb0, rfl, -⟩ := drop_eq_cons he hk hbs
  have hlt : b < f.blocks.size := (he.mem_iff.1 hb).lt_size hcon
  obtain ⟨blk, hblk, hget⟩ := Func.exists_block_eq_ok hlt
  obtain ⟨u, hmeet, hu⟩ := h.exists_isMeet hcon he hb hb0 hget
  by_cases hbu : parent idom b = some u
  · refine ⟨idom, changed, fun bs' => ?_, hsize, h.advance hu hbu, .inl ⟨rfl, rfl, u, hbu, hu⟩⟩
    rw [sweep_cons hblk hmeet, if_pos hbu]
  · have hbsize : b < idom.size := hsize ▸ hlt
    have h' := h.setParent hcon he hb hb0 hu
    rw [← parent_setIfInBounds hbsize] at h'
    refine ⟨idom.setIfInBounds b (some u), true, fun bs' => ?_, by simpa using hsize, h',
      .inr ⟨h.cost_lt hbsize hb0 hu hbu, rfl⟩⟩
    rw [sweep_cons hblk hmeet, if_neg hbu]

/-- A sweep ends, keeps the invariant and makes the cost smaller unless it changes nothing. -/
theorem Stage.sweep (hcon : f.Consistent) (he : f.Enumerates order) {bs : List BlockId}
    (changed : Bool) (hsize : idom.size = f.blocks.size) (hk : 0 < k) (hbs : order.drop k = bs)
    (h : Stage f order k (parent idom)) :
    ∃ idom' changed', Dominators.sweep f (numbering f.blocks.size order) bs idom changed =
        .ok (idom', changed') ∧ idom'.size = f.blocks.size ∧ Stage f order 1 (parent idom') ∧
      (idom' = idom ∧ changed' = changed ∧ Settled f (parent idom) bs ∨
        cost order idom' < cost order idom ∧ changed' = true) := by
  induction bs generalizing k idom changed with
  | nil =>
    exact ⟨idom, changed, rfl, hsize, h.restart (List.drop_eq_nil_iff.1 hbs) 1,
      .inl ⟨rfl, rfl, by simp [Settled]⟩⟩
  | cons b bs ih =>
    obtain ⟨idom₁, changed₁, hstep, hsize₁, h₁, hcost₁⟩ := h.visit hcon he changed hsize hk hbs
    obtain ⟨idom', changed', hs, hsize', h', hcost⟩ :=
      ih changed₁ hsize₁ (Nat.succ_pos _) (drop_eq_cons he hk hbs).2.2.2 h₁
    refine ⟨idom', changed', (hstep bs).trans hs, hsize', h', ?_⟩
    rcases hcost₁ with ⟨rfl, rfl, hmeet⟩ | ⟨hcost₁, rfl⟩
    · refine hcost.imp_left fun hsame => ?_
      obtain ⟨hid, hch, hset⟩ := hsame
      exact ⟨hid, hch, List.forall_mem_cons.2 ⟨hmeet, hset⟩⟩
    · refine .inr ?_
      rcases hcost with ⟨rfl, rfl, -⟩ | ⟨hcost, rfl⟩
      · exact ⟨hcost₁, rfl⟩
      · exact ⟨Nat.lt_trans hcost hcost₁, rfl⟩

/-- The sweeps end, and then all parents are meeting points. -/
theorem Stage.settle (hcon : f.Consistent) (he : f.Enumerates order) (fuel : Nat)
    (hsize : idom.size = f.blocks.size) (h : Stage f order 1 (parent idom))
    (hfuel : cost order idom < fuel) :
    ∃ idom', Dominators.settle f (numbering f.blocks.size order) order.tail fuel idom = .ok idom' ∧
      idom'.size = f.blocks.size ∧ Stage f order 1 (parent idom') ∧
      Settled f (parent idom') order.tail := by
  induction fuel generalizing idom with
  | zero => omega
  | succ fuel ih =>
    obtain ⟨idom', changed, hs, hsize', h', hcost⟩ :=
      h.sweep hcon he false hsize Nat.one_pos List.drop_one
    have hstep : Dominators.settle f (numbering f.blocks.size order) order.tail (fuel + 1) idom =
        if changed then Dominators.settle f (numbering f.blocks.size order) order.tail fuel idom'
        else .ok idom' := by
      rw [Dominators.settle, hs]
      rfl
    rw [hstep]
    rcases hcost with ⟨rfl, rfl, hset⟩ | ⟨hcost, rfl⟩
    · exact ⟨idom', rfl, hsize', h', hset⟩
    · exact ih hsize' h' (by omega)

/-- The table before the first sweep. -/
theorem stage_start (he : f.Enumerates order) (hf : 0 < f.blocks.size) :
    Stage f order 1 (parent ((Array.replicate f.blocks.size none).setIfInBounds 0 (some 0))) := by
  have hnone : parent (Array.replicate f.blocks.size none) = fun _ => none := by
    funext b
    unfold parent
    by_cases hb : b < f.blocks.size <;> simp [hb]
  rw [parent_setIfInBounds (by simpa using hf), hnone]
  have hentry {b c : BlockId} (h : setParent (fun _ => none) 0 0 b = some c) : b = 0 ∧ c = 0 := by
    unfold setParent at h
    split at h
    · next hb => exact ⟨hb, (Option.some.inj h).symm⟩
    · cases h
  refine {
    root := setParent_self
    mem := fun h => (hentry h).1 ▸ he.entry_mem
    isSome_parent := fun h => by simp [(hentry h).2]
    lt := fun h h0 => absurd (hentry h).1 h0
    visited := fun {b} hb hlt => ?_
    closed := fun {a b} hb _ hlt => ?_
    dominates := fun h h0 => absurd (hentry h).1 h0
    above_parent := fun h h0 => absurd (hentry h).1 h0
    above_pred := fun h h0 => absurd (hentry h).1 h0 }
  · have hidx : order.idxOf b = order.idxOf 0 := by
      rw [he.eq_cons, List.idxOf_cons_self, ← he.eq_cons]
      omega
    simp [eq_of_idxOf_eq hb hidx]
  · obtain ⟨c, hc⟩ := Option.isSome_iff_exists.1 hb
    rw [(hentry hc).1, he.eq_cons, List.idxOf_cons_self] at hlt
    omega

theorem cost_start_le (hcon : f.Consistent) (he : f.Enumerates order) :
    cost order ((Array.replicate f.blocks.size none).setIfInBounds 0 (some 0)) ≤
      f.blocks.size * f.blocks.size := by
  have hlen := length_le_size hcon he
  have hf : 0 < f.blocks.size := (he.mem_iff.1 he.entry_mem).lt_size hcon
  have hset := Func.sum_map_set (fun p : Option BlockId => p.elim order.length order.idxOf)
    (l := List.replicate f.blocks.size none) (n := 0) (x := none) (y := some 0) (by simp [hf])
  have hidx : order.idxOf 0 < order.length := List.idxOf_lt_length_of_mem he.entry_mem
  have hmul : f.blocks.size * order.length ≤ f.blocks.size * f.blocks.size :=
    Nat.mul_le_mul_left _ hlen
  simp only [Option.elim_none, Option.elim_some, List.map_replicate, List.sum_replicate_nat] at hset
  simp only [cost, Array.toList_setIfInBounds, Array.toList_replicate]
  omega

/-! ### Correctness -/

/-- The dominators of a function in terms of its paths. -/
structure Correct (d : Dominators) (f : Func) : Prop where
  reachable_iff : ∀ {b}, d.reachable b = true ↔ f.Reachable b
  dominates_iff : ∀ {a b}, d.dominates a b = true ↔
    f.Reachable a ∧ f.Reachable b ∧ f.Dominates a b
  /-- The entry is its own immediate dominator. -/
  idom_entry : f.Reachable 0 → d.idom[0]? = some (some 0)
  /-- The immediate dominator is the strict dominator that all others dominate. -/
  idom : ∀ {b}, f.Reachable b → b ≠ 0 → ∃ c, d.idom[b]? = some (some c) ∧
    f.StrictlyDominates c b ∧ ∀ a, f.StrictlyDominates a b → f.Dominates a c
  /-- A block that cannot be reached has no immediate dominator. -/
  idom_unreachable : ∀ {b}, b < f.blocks.size → ¬f.Reachable b → d.idom[b]? = some none

theorem Stage.isSome_of_settled (h : Stage f order k par) (he : f.Enumerates order)
    (hset : Settled f par order.tail) (hb : b ∈ order) : (par b).isSome := by
  rw [he.eq_cons] at hb
  rcases List.mem_cons.1 hb with rfl | hb
  · simp [h.root]
  · obtain ⟨u, hu, -⟩ := hset b hb
    simp [hu]

/-- When the parents are meeting points, the blocks above a block are on every path to it. -/
theorem Stage.mem_path_of_above (h : Stage f order k par) (hcon : f.Consistent)
    (he : f.Enumerates order) (hset : Settled f par order.tail) {p : List BlockId}
    (hp : f.Path b p) (hab : Above par a b) : a ∈ p := by
  induction hp with
  | entry => simp [(above_root_iff h.root).1 hab]
  | @step b s p hp hs ih =>
    by_cases has : a = s
    · simp [has]
    have hmem : s ∈ order := he.mem_iff.2 (hp.reachable.step hs)
    have hs0 : s ≠ 0 := by
      rintro rfl
      exact has ((above_root_iff h.root).1 hab)
    rw [he.eq_cons] at hmem
    obtain ⟨u, hu, hmeet⟩ := hset s ((List.mem_cons.1 hmem).resolve_left hs0)
    have hbs := h.isSome_of_settled he hset (he.mem_iff.2 hp.reachable)
    exact List.mem_cons_of_mem _
      (ih (hmeet.above_iff.1 (hab.of_ne has hu) b (hcon.edges.mem_predsOf.2 hs) hbs))

/-- When the parents are meeting points, the blocks above a block are its dominators. -/
theorem Stage.above_iff_dominates (h : Stage f order k par) (hcon : f.Consistent)
    (he : f.Enumerates order) (hset : Settled f par order.tail) (hb : b ∈ order) :
    Above par a b ↔ f.Dominates a b := by
  have hf : 0 < f.blocks.size := (he.mem_iff.1 he.entry_mem).lt_size hcon
  refine ⟨fun hab p hp => h.mem_path_of_above hcon he hset hp hab, fun hab => ?_⟩
  exact h.above_of_dominates hf (h.isSome_of_settled he hset hb) hab

theorem getElem?_eq_parent (hb : b < idom.size) : idom[b]? = some (parent idom b) := by
  simp [parent, hb]

theorem Stage.correct (h : Stage f order k (parent idom)) (hcon : f.Consistent)
    (he : f.Enumerates order) (hset : Settled f (parent idom) order.tail)
    (hsize : idom.size = f.blocks.size) :
    Correct { order, number := numbering f.blocks.size order, idom } f := by
  have hlen := length_le_size hcon he
  have hreach {b : BlockId} : reachable
      { order, number := numbering f.blocks.size order, idom } b = true ↔ f.Reachable b := by
    rw [reachable, join_numbering he.nodup fun b hb => (he.mem_iff.1 hb).lt_size hcon,
      ← he.mem_iff]
    split <;> simp [*]
  have hlt {b : BlockId} (hb : f.Reachable b) : b < idom.size := hsize ▸ hb.lt_size hcon
  refine ⟨hreach, fun {a b} => ?_, fun h0 => ?_, fun {b} hb hb0 => ?_, fun {b} hb hbr => ?_⟩
  · simp only [Dominators.dominates, Bool.and_eq_true, hreach, and_assoc]
    refine and_congr_right fun _ => and_congr_right fun hb => ?_
    have hbo := he.mem_iff.2 hb
    have hidx := List.idxOf_lt_length_of_mem hbo
    rw [h.isAbove_iff (h.isSome_of_settled he hset hbo) (by omega),
      h.above_iff_dominates hcon he hset hbo]
  · rw [getElem?_eq_parent (hlt h0), h.root]
  · have hbo := he.mem_iff.2 hb
    obtain ⟨c, hc⟩ := Option.isSome_iff_exists.1 (h.isSome_of_settled he hset hbo)
    have hcb := h.lt hc hb0
    refine ⟨c, by rw [getElem?_eq_parent (hlt hb), hc], ⟨?_, ?_⟩, fun a ha => h.dominates hc hb0 ha⟩
    · exact (h.above_iff_dominates hcon he hset hbo).1 (Above.refl.up hc)
    · rintro rfl
      omega
  · rw [getElem?_eq_parent (hsize ▸ hb)]
    cases hp : parent idom b with
    | none => rfl
    | some c => exact absurd (he.mem_iff.1 (h.mem hp)) hbr

end Codegen.Dominators

namespace Codegen.Func

open Dominators

variable {f : Func}

/-- The dominators of a function with blocks are what the sweeps end with. -/
theorem exists_settle (hcon : f.Consistent) (hf : 0 < f.blocks.size) :
    ∃ order idom, f.Enumerates order ∧
      settle f (numbering f.blocks.size order) order.tail (f.blocks.size * f.blocks.size + 2)
        ((Array.replicate f.blocks.size none).setIfInBounds 0 (some 0)) = .ok idom ∧
      f.dominators = .ok { order, number := numbering f.blocks.size order, idom } ∧
      idom.size = f.blocks.size ∧ Stage f order 1 (parent idom) ∧
      Settled f (parent idom) order.tail := by
  obtain ⟨order, ho, he⟩ := exists_order hcon hf
  obtain ⟨rest, rfl⟩ : ∃ rest, order = 0 :: rest := ⟨_, he.eq_cons⟩
  have hcost := cost_start_le hcon he
  obtain ⟨idom, hsettle, hsize, h, hset⟩ := (stage_start he hf).settle hcon he
    (f.blocks.size * f.blocks.size + 2) (by simp) (by omega)
  refine ⟨_, idom, he, hsettle, ?_, hsize, h, hset⟩
  exact Except.bind_eq_ok.2 ⟨_, ho, Except.bind_eq_ok.2 ⟨idom, hsettle, rfl⟩⟩

theorem dominators_of_size_eq_zero (hf : f.blocks.size = 0) :
    f.dominators = .ok { order := [], number := #[], idom := #[] } := by
  have hdecl : f.isDeclaration = true := by simpa [isDeclaration] using hf
  simp [dominators, order, hdecl, hf, numbering, bind, Except.bind, pure, Except.pure]

/-- The computation ends with dominators that are correct. -/
theorem exists_dominators (hcon : f.Consistent) : ∃ d, f.dominators = .ok d ∧ d.Correct f := by
  by_cases hf : 0 < f.blocks.size
  · obtain ⟨order, idom, he, -, hd, hsize, h, hset⟩ := exists_settle hcon hf
    exact ⟨_, hd, h.correct hcon he hset hsize⟩
  · have hempty : f.blocks.size = 0 := by omega
    have hno (b : BlockId) : ¬f.Reachable b := by
      intro hb
      have hlt := hb.lt_size hcon
      rw [hempty] at hlt
      exact absurd hlt (Nat.not_lt_zero b)
    refine ⟨_, dominators_of_size_eq_zero hempty, ?_⟩
    exact ⟨by simp [reachable, hno], by simp [Dominators.dominates, reachable, hno],
      fun h => absurd h (hno 0), fun h => absurd h (hno _), fun h => absurd h (by omega)⟩

/-- For every function that is built step by step the computation of dominators ends. It finds that
`a` dominates `b` just if both are reachable and `a` is on every path from the entry to `b`. The
immediate dominator of a reachable block other than the entry is the strict dominator that every
other strict dominator of the block dominates; the entry has itself, and a block that cannot be
reached has none. -/
theorem dominators_correct (h : f.Built) :
    ∃ d, f.dominators = .ok d ∧
      (∀ a b, d.dominates a b = true ↔
        f.Reachable a ∧ f.Reachable b ∧ ∀ p, f.Path b p → a ∈ p) ∧
      (∀ b, f.Reachable b → b ≠ 0 → ∃ c, d.idom[b]? = some (some c) ∧
        f.StrictlyDominates c b ∧ ∀ a, f.StrictlyDominates a b → a ≠ c → f.Dominates a c) ∧
      (0 < f.blocks.size → d.idom[0]? = some (some 0)) ∧
      ∀ b < f.blocks.size, ¬f.Reachable b → d.idom[b]? = some none := by
  obtain ⟨d, hd, hcorrect⟩ := exists_dominators h.consistent
  refine ⟨d, hd, fun a b => hcorrect.dominates_iff, fun b hb hb0 => ?_,
    fun hf => hcorrect.idom_entry (.entry hf), fun b hb hbr => hcorrect.idom_unreachable hb hbr⟩
  obtain ⟨c, hc, hcb, hall⟩ := hcorrect.idom hb hb0
  exact ⟨c, hc, hcb, fun a ha _ => hall a ha⟩

/-- The loop of the sample function has an unreachable predecessor. -/
theorem dominators_correct_sample :
    sample.Built ∧ ∃ d, sample.dominators = .ok d ∧
      (∀ a b, d.dominates a b = true ↔
        sample.Reachable a ∧ sample.Reachable b ∧ ∀ p, sample.Path b p → a ∈ p) ∧
      (∀ b, sample.Reachable b → b ≠ 0 → ∃ c, d.idom[b]? = some (some c) ∧
        sample.StrictlyDominates c b ∧
          ∀ a, sample.StrictlyDominates a b → a ≠ c → sample.Dominates a c) ∧
      (0 < sample.blocks.size → d.idom[0]? = some (some 0)) ∧
      ∀ b < sample.blocks.size, ¬sample.Reachable b → d.idom[b]? = some none :=
  ⟨built_sample, dominators_correct built_sample⟩

end Codegen.Func
