import Codegen.Proofs.Construction

/-!
# Paths and dominance

A path starts at the entry, the block numbered zero, and follows the recorded edges. A block
dominates another if it is on every path to the other. Nothing here refers to the computation of
dominators.

## Main definitions

* `Func.Path`: the paths from the entry to a block, as lists with the last block first.
* `Func.Reachable`: the blocks to which there is a path.
* `Func.Dominates`, `Func.StrictlyDominates`: dominance.

## Main results

* `Func.Dominates.trans`, `Func.Dominates.antisymm`: dominance orders the reachable blocks.
* `Func.StrictlyDominates.of_edge`: what strictly dominates a block dominates its reachable
  predecessors.
-/

namespace Codegen.Func

variable {f : Func} {a b c s : BlockId} {p q : List BlockId}

/-- A path from the entry to a block, given by its blocks from the last one to the entry. -/
inductive Path (f : Func) : BlockId → List BlockId → Prop
  | entry (h : 0 < f.blocks.size) : Path f 0 [0]
  | step {b s : BlockId} {p : List BlockId} (hp : Path f b p) (hs : s ∈ f.succsOf b) :
      Path f s (s :: p)

/-- Whether there is a path to a block. -/
inductive Reachable (f : Func) : BlockId → Prop
  | entry (h : 0 < f.blocks.size) : Reachable f 0
  | step {b s : BlockId} (hb : Reachable f b) (hs : s ∈ f.succsOf b) : Reachable f s

/-- A block dominates another if it is on every path to the other. -/
def Dominates (f : Func) (a b : BlockId) : Prop := ∀ p, f.Path b p → a ∈ p

/-- A block strictly dominates another if it is on every path to the other and is not the other. -/
def StrictlyDominates (f : Func) (a b : BlockId) : Prop := f.Dominates a b ∧ a ≠ b

/-! ### Paths -/

theorem Path.mem (h : f.Path b p) : b ∈ p := by
  cases h <;> simp

theorem Path.reachable (h : f.Path b p) : f.Reachable b := by
  induction h with
  | entry h => exact .entry h
  | step _ hs ih => exact .step ih hs

theorem Reachable.exists_path (h : f.Reachable b) : ∃ p, f.Path b p := by
  induction h with
  | entry h => exact ⟨_, .entry h⟩
  | step _ hs ih =>
    obtain ⟨p, hp⟩ := ih
    exact ⟨_, hp.step hs⟩

/-- A path to a block leads to each of its own blocks before. -/
theorem Path.exists_suffix (h : f.Path b p) (ha : a ∈ p) : ∃ q, f.Path a q ∧ q <:+ p := by
  induction h with
  | entry h =>
    obtain rfl := List.mem_singleton.1 ha
    exact ⟨_, .entry h, List.suffix_refl _⟩
  | step hp hs ih =>
    rcases List.mem_cons.1 ha with rfl | ha
    · exact ⟨_, hp.step hs, List.suffix_refl _⟩
    · obtain ⟨q, hq, hqp⟩ := ih ha
      exact ⟨q, hq, hqp.trans (List.suffix_cons _ _)⟩

/-! ### Dominance -/

theorem Dominates.refl (f : Func) (b : BlockId) : f.Dominates b b := fun _ hp => hp.mem

theorem Dominates.trans (hab : f.Dominates a b) (hbc : f.Dominates b c) : f.Dominates a c := by
  intro p hp
  obtain ⟨q, hq, hqp⟩ := hp.exists_suffix (hbc p hp)
  exact hqp.subset (hab q hq)

/-- A block that dominates a reachable block is reachable. -/
theorem Dominates.reachable (hab : f.Dominates a b) (hb : f.Reachable b) : f.Reachable a := by
  obtain ⟨p, hp⟩ := hb.exists_path
  obtain ⟨q, hq, -⟩ := hp.exists_suffix (hab p hp)
  exact hq.reachable

/-- Of two blocks that dominate each other each is on a path to the other that is no longer, so that
the shortest paths to them are the same. -/
theorem Dominates.antisymm (hab : f.Dominates a b) (hba : f.Dominates b a) (hb : f.Reachable b) :
    a = b := by
  obtain ⟨p, hp⟩ := hb.exists_path
  induction hn : p.length using Nat.strongRecOn generalizing p with
  | _ n ih =>
    obtain ⟨q, hq, hqp⟩ := hp.exists_suffix (hab p hp)
    obtain ⟨r, hr, hrq⟩ := hq.exists_suffix (hba q hq)
    rcases Nat.lt_or_eq_of_le hqp.length_le with hlt | heq
    · exact ih r.length (by have := hrq.length_le; omega) r hr rfl
    · obtain rfl := hqp.eq_of_length heq
      cases hp <;> cases hq <;> rfl

/-- What strictly dominates a block dominates each of its predecessors. -/
theorem StrictlyDominates.of_edge (h : f.StrictlyDominates a s) (hs : s ∈ f.succsOf b) :
    f.Dominates a b := by
  intro p hp
  rcases List.mem_cons.1 (h.1 _ (hp.step hs)) with has | ha
  · exact absurd has h.2
  · exact ha

theorem Dominates.eq_or_strictly (h : f.Dominates a b) : a = b ∨ f.StrictlyDominates a b := by
  by_cases hab : a = b
  · exact .inl hab
  · exact .inr ⟨h, hab⟩

/-- Only the entry dominates the entry. -/
theorem Dominates.eq_entry (h : f.Dominates a 0) (hf : 0 < f.blocks.size) : a = 0 := by
  simpa using h _ (.entry hf)

theorem Reachable.lt_size (hc : f.Consistent) (h : f.Reachable b) : b < f.blocks.size := by
  cases h with
  | entry h => exact h
  | step _ hs => exact hc.edges.succ_lt hs

end Codegen.Func
