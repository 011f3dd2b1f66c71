import Codegen.Proofs.WellFormed

/-!
# The traversal behind the order of the blocks

The order of the blocks is the reverse post order of a forest that the walk follows depth first. A
block of the forest has below it those of its successors that no block had claimed before, and it
claims them all at once when it is met. A depth-first search would claim a successor only when it
comes to it. The difference shows at an edge to a block that waits on the stack: it was claimed by a
block further up, and what comes before it on the stack is finished first. Such an edge leads
backwards in the order even if there is no way back. All other edges without a way back lead
forwards.

## Main definitions

* `Forest`, `Forest.order`: forests of blocks and their reverse post order.
* `Func.Claims`: the forest that is followed from some blocks.
* `Forest.Waits`: a block waits on the stack while another one is met.

## Main results

* `Func.Walk.Sound.traverse`: the walk follows the forest.
* `Func.Claims.edge_cases`: the edges between blocks of the forest.
* `Func.order_follows_forest`: what the order promises.
-/

namespace Codegen

/-! ### Forests -/

/-- Trees that stand beside each other, in the order in which they are followed. -/
inductive Forest where
  /-- No tree. -/
  | nil
  /-- The first tree, with a block at its root and the forest below it, and the trees beside it. -/
  | node (b : BlockId) (below beside : Forest)
deriving DecidableEq, Repr

namespace Forest

variable {t : Forest} {u v : BlockId}

/-- The roots of the trees. -/
def roots : Forest → List BlockId
  | nil => []
  | node b _ beside => b :: beside.roots

/-- The reverse post order: a root is finished after what is below it and before what is beside it.
-/
def order : Forest → List BlockId
  | nil => []
  | node b below beside => beside.order ++ b :: below.order

/-- Whether `v` is a root beside a tree that holds `u`, and is followed later. -/
def Waits (u v : BlockId) : Forest → Prop
  | nil => False
  | node b below beside =>
    u ∈ b :: below.order ∧ v ∈ beside.roots ∨ below.Waits u v ∨ beside.Waits u v

/-- Whether a block waits can be read off the forest. -/
instance decidableWaits (u v : BlockId) : ∀ t : Forest, Decidable (t.Waits u v)
  | nil => .isFalse id
  | node b below beside =>
    have := decidableWaits u v below
    have := decidableWaits u v beside
    inferInstanceAs (Decidable (u ∈ b :: below.order ∧ v ∈ beside.roots ∨ _ ∨ _))

theorem roots_subset_order (t : Forest) : t.roots ⊆ t.order := by
  induction t with
  | nil => exact List.Subset.refl []
  | node b below beside _ ih =>
    refine List.cons_subset.2 ⟨by simp [order], fun v hv => ?_⟩
    exact List.mem_append_left _ (ih hv)

/-- A block that waits is finished later. -/
theorem Waits.sublist (h : t.Waits u v) : [v, u].Sublist t.order := by
  induction t with
  | nil => exact h.elim
  | node b below beside ihbelow ihbeside =>
    rcases h with ⟨hu, hv⟩ | h | h
    · exact (List.singleton_sublist.2 (beside.roots_subset_order hv)).append
        (List.singleton_sublist.2 hu)
    · exact (ihbelow h).trans ((List.sublist_cons_self b _).trans (List.sublist_append_right _ _))
    · exact (ihbeside h).trans (List.sublist_append_left _ _)

end Forest

namespace Func

variable {f : Func} {b c u v : BlockId} {agenda taken taken' : List BlockId} {t : Forest}

/-! ### The blocks that are claimed -/

/-- Following some blocks one after the other, where some blocks are taken: the forest, and the
blocks that are taken in the end. A block claims all successors that are not taken, and they are
followed before the blocks beside it. -/
inductive Claims (f : Func) : List BlockId → List BlockId → Forest → List BlockId → Prop
  | nil {taken : List BlockId} : Claims f [] taken .nil taken
  | cons {b : BlockId} {agenda taken taken' taken'' : List BlockId} {below beside : Forest}
      (hbelow : Claims f ((f.succsOf b).filter (· ∉ taken))
        (taken ++ (f.succsOf b).filter (· ∉ taken)) below taken')
      (hbeside : Claims f agenda taken' beside taken'') :
      Claims f (b :: agenda) taken (.node b below beside) taken''

/-- Some edges lead from a block to another one. -/
def Leads (f : Func) : BlockId → BlockId → Prop :=
  Relation.ReflTransGen fun a b => b ∈ f.succsOf a

theorem Claims.roots_eq (h : f.Claims agenda taken t taken') : t.roots = agenda := by
  induction h with
  | nil => rfl
  | cons _ _ _ ih => rw [Forest.roots, ih]

/-- The successors that a block claims when it is met. -/
theorem mem_claimed : c ∈ (f.succsOf b).filter (· ∉ taken) ↔ c ∈ f.succsOf b ∧ c ∉ taken := by
  simp

theorem mem_append_claimed (hc : c ∈ f.succsOf b) :
    c ∈ taken ++ (f.succsOf b).filter (· ∉ taken) := by
  by_cases htaken : c ∈ taken
  · exact List.mem_append_left _ htaken
  · exact List.mem_append_right _ (mem_claimed.2 ⟨hc, htaken⟩)

/-- What is taken stays taken. -/
theorem Claims.subset_taken (h : f.Claims agenda taken t taken') : taken ⊆ taken' := by
  induction h with
  | nil => exact List.Subset.refl _
  | cons _ _ ihbelow ihbeside => exact fun c hc => ihbeside (ihbelow (List.mem_append_left _ hc))

/-- The forest holds the blocks that are followed, and blocks that were not taken. -/
theorem Claims.fresh (h : f.Claims agenda taken t taken') (hc : c ∈ t.order) :
    c ∈ agenda ∨ c ∉ taken := by
  induction h with
  | nil => cases hc
  | @cons b agenda taken taken' taken'' below beside hbelow hbeside ihbelow ihbeside =>
    rw [Forest.order, List.mem_append, List.mem_cons] at hc
    rcases hc with hc | rfl | hc
    · rcases ihbeside hc with hc | hc
      · exact .inl (List.mem_cons_of_mem _ hc)
      · exact .inr fun htaken => hc (hbelow.subset_taken (List.mem_append_left _ htaken))
    · exact .inl List.mem_cons_self
    · rcases ihbelow hc with hc | hc
      · exact .inr (mem_claimed.1 hc).2
      · exact .inr fun htaken => hc (List.mem_append_left _ htaken)

/-- The blocks of the forest are reached from those that are followed. -/
theorem Claims.exists_leads (h : f.Claims agenda taken t taken') (hc : c ∈ t.order) :
    ∃ r ∈ agenda, f.Leads r c := by
  induction h with
  | nil => cases hc
  | @cons b agenda taken taken' taken'' below beside _ _ ihbelow ihbeside =>
    rw [Forest.order, List.mem_append, List.mem_cons] at hc
    rcases hc with hc | rfl | hc
    · obtain ⟨r, hr, hlead⟩ := ihbeside hc
      exact ⟨r, List.mem_cons_of_mem _ hr, hlead⟩
    · exact ⟨c, List.mem_cons_self, .refl⟩
    · obtain ⟨r, hr, hlead⟩ := ihbelow hc
      exact ⟨b, List.mem_cons_self, .head (mem_claimed.1 hr).1 hlead⟩

/-- A block leads to all blocks below it. -/
theorem Claims.leads_below {below : Forest}
    (h : f.Claims ((f.succsOf b).filter (· ∉ taken)) taken' below agenda)
    (hu : u ∈ b :: below.order) : f.Leads b u := by
  rcases List.mem_cons.1 hu with rfl | hu
  · exact .refl
  · obtain ⟨r, hr, hlead⟩ := h.exists_leads hu
    exact .head (mem_claimed.1 hr).1 hlead

/-- The successors of the blocks of the forest are taken in the end. -/
theorem Claims.succ_taken (h : f.Claims agenda taken t taken') (hu : u ∈ t.order)
    (hv : v ∈ f.succsOf u) : v ∈ taken' := by
  induction h with
  | nil => cases hu
  | @cons b agenda taken taken' taken'' below beside hbelow hbeside ihbelow ihbeside =>
    rw [Forest.order, List.mem_append, List.mem_cons] at hu
    rcases hu with hu | rfl | hu
    · exact ihbeside hu
    · exact hbeside.subset_taken (hbelow.subset_taken (mem_append_claimed hv))
    · exact hbeside.subset_taken (ihbelow hu)

/-! ### Edges -/

/-- An edge between blocks of the forest leads forwards in the order, or to a block that waits, or
there is a way back. -/
theorem Claims.edge_cases (h : f.Claims agenda taken t taken') (hu : u ∈ t.order)
    (hv : v ∈ t.order) (huv : v ∈ f.succsOf u) :
    [u, v].Sublist t.order ∨ t.Waits u v ∨ f.Leads v u := by
  induction h with
  | nil => cases hu
  | @cons b agenda taken taken' taken'' below beside hbelow hbeside ihbelow ihbeside =>
    have hfirst : (b :: below.order).Sublist (Forest.node b below beside).order :=
      List.sublist_append_right _ _
    rw [Forest.order, List.mem_append] at hu hv
    rcases hu with hu | hu
    · rcases hv with hv | hv
      · refine (ihbeside hu hv).imp (fun h => ?_) (Or.imp_left fun h => .inr (.inr h))
        exact h.trans (List.sublist_append_left _ _)
      · exact .inl ((List.singleton_sublist.2 hu).append (List.singleton_sublist.2 hv))
    rcases hv with hv | hv
    · -- The successors of the first tree are taken before the trees beside it are followed.
      have htaken : v ∈ taken' := by
        rcases List.mem_cons.1 hu with rfl | hu
        · exact hbelow.subset_taken (mem_append_claimed huv)
        · exact hbelow.succ_taken hu huv
      rcases hbeside.fresh hv with hroot | hnot
      · exact .inr (.inl (.inl ⟨hu, hbeside.roots_eq.symm ▸ hroot⟩))
      · exact absurd htaken hnot
    · rcases List.mem_cons.1 hv with rfl | hbelowv
      · exact .inr (.inr (hbelow.leads_below hu))
      · rcases List.mem_cons.1 hu with rfl | hbelowu
        · exact .inl (((List.singleton_sublist.2 hbelowv).cons_cons u).trans hfirst)
        · refine (ihbelow hbelowu hbelowv).imp (fun h => ?_) (Or.imp_left fun h => .inr (.inl h))
          exact h.trans ((List.sublist_cons_self b _).trans hfirst)

/-- A block that waits was claimed by a block from which there is a way to the one that is met. -/
theorem Claims.exists_shortcut (h : f.Claims agenda taken t taken') (hagenda : agenda ⊆ taken)
    {p : BlockId} (hp : p ∈ taken) (hnot : p ∉ agenda) (hsucc : ∀ r ∈ agenda, r ∈ f.succsOf p)
    (hwaits : t.Waits u v) : ∃ q, q ≠ u ∧ v ∈ f.succsOf q ∧ f.Leads q u := by
  induction h generalizing p with
  | nil => exact hwaits.elim
  | @cons b agenda taken taken' taken'' below beside hbelow hbeside ihbelow ihbeside =>
    have hall : f.Claims (b :: agenda) taken (.node b below beside) taken'' := .cons hbelow hbeside
    obtain ⟨hb, hagenda⟩ := List.cons_subset.1 hagenda
    have hsub : taken ⊆ taken' := fun c hc => hbelow.subset_taken (List.mem_append_left _ hc)
    obtain ⟨hbsucc, hsucc⟩ := List.forall_mem_cons.1 hsucc
    rcases hwaits with ⟨hu, hv⟩ | hwaits | hwaits
    · refine ⟨p, ?_, hsucc v (hbeside.roots_eq ▸ hv), .head hbsucc (hbelow.leads_below hu)⟩
      rintro rfl
      exact (hall.fresh (List.mem_append_right _ hu)).elim hnot fun h => h hp
    · exact ihbelow (List.subset_append_right _ _) (List.mem_append_left _ hb)
        (fun hmem => (mem_claimed.1 hmem).2 hb) (fun r hr => (mem_claimed.1 hr).1) hwaits
    · exact ihbeside (fun c hc => hsub (hagenda hc)) (hsub hp)
        (fun hmem => hnot (List.mem_cons_of_mem _ hmem)) hsucc hwaits

/-! ### The walk -/

namespace Walk

variable {w w' : Walk} {rest : List BlockId}

theorem push_eq_ok {s : BlockId} (h : w.push s = .ok w') :
    w.marks[s]? = some .unseen ∧ w' = w.met s ∨ w.marks[s]? ≠ some .unseen ∧ w' = w := by
  unfold push at h
  split at h
  · cases h
  · next hm =>
    cases h
    exact .inl ⟨hm, rfl⟩
  · next hm hne =>
    cases h
    exact .inr ⟨fun hunseen => hm (Option.some.inj (hne.symm.trans hunseen)), rfl⟩

/-- Putting blocks on the stack: those that were never on it go on top of it, the last one topmost.
-/
theorem pushes_eq_ok {l : List BlockId} (hl : l.Nodup) (h : l.foldlM push w = .ok w') :
    w'.stack = (l.filter (w.marks[·]? = some .unseen)).reverse ++ w.stack ∧
      w'.finished = w.finished ∧ ∀ c : BlockId, w'.marks[c]? =
        if c ∈ l ∧ w.marks[c]? = some .unseen then some .seen else w.marks[c]? := by
  induction l generalizing w with
  | nil =>
    obtain rfl := Except.pure_eq_ok.1 h
    simp
  | cons s l ih =>
    obtain ⟨hs, hl⟩ := List.nodup_cons.1 hl
    rw [List.foldlM_cons] at h
    obtain ⟨w₁, hw₁, h⟩ := Except.bind_eq_ok.1 h
    obtain ⟨hstack, hfinished, hmarks⟩ := ih hl h
    rcases push_eq_ok hw₁ with ⟨hm, rfl⟩ | ⟨hm, rfl⟩
    · have hlt : s < w.marks.size := (Array.getElem?_eq_some_iff.1 hm).1
      have hother : ∀ c ∈ l, (w.met s).marks[c]? = w.marks[c]? := fun c hc => by
        rw [getElem?_marks_met hlt, if_neg (ne_of_mem_of_not_mem hc hs)]
      refine ⟨?_, hfinished, fun c => ?_⟩
      · have hfilter : l.filter ((w.met s).marks[·]? = some .unseen) =
            l.filter (w.marks[·]? = some .unseen) :=
          List.filter_congr fun c hc => by rw [hother c hc]
        rw [hstack, hfilter, List.filter_cons_of_pos (by simpa using hm), List.reverse_cons,
          List.append_assoc]
        rfl
      · rw [hmarks, getElem?_marks_met hlt]
        by_cases hcs : c = s
        · subst hcs
          simp [hs, hm]
        · simp [hcs]
    · refine ⟨?_, hfinished, fun c => ?_⟩
      · rw [hstack, List.filter_cons_of_neg (by simpa using hm)]
      · rw [hmarks]
        by_cases hcs : c = s
        · subst hcs
          simp [hs, hm]
        · simp [hcs]

/-- The step at which a block is met: the successors that were never on the stack go on top of it.
-/
theorem step_seen (hc : f.Consistent) (hb : w.marks[b]? = some .seen)
    (h : w.step f b rest = .ok w') :
    w'.stack = (f.succsOf b).filter (w.marks[·]? = some .unseen) ++ w.stack ∧
      w'.finished = w.finished ∧ ∀ c : BlockId, w'.marks[c]? = if c = b then some .done else
        if c ∈ f.succsOf b ∧ w.marks[c]? = some .unseen then some .seen else w.marks[c]? := by
  simp only [step, hb, Except.bind_eq_ok, Except.pure_eq_ok] at h
  obtain ⟨blk, hblk, w₁, hw₁, rfl⟩ := h
  have hsuccs := succs_eq_succsOf (block_eq_ok.1 hblk)
  have hnodup : blk.succs.reverse.Nodup :=
    List.nodup_reverse.2 (hsuccs ▸ hc.edges.nodup_succsOf b)
  obtain ⟨hstack, hfinished, hmarks⟩ := pushes_eq_ok hnodup hw₁
  rw [List.filter_reverse, List.reverse_reverse, ← hsuccs] at hstack
  refine ⟨hstack, hfinished, fun c => ?_⟩
  have hlt : b < w₁.marks.size := by
    have hb₁ := hmarks b
    rw [hb, if_neg (by simp)] at hb₁
    exact (Array.getElem?_eq_some_iff.1 hb₁).1
  have hset : (w₁.marks.setIfInBounds b .done)[c]? =
      if c = b then some .done else w₁.marks[c]? := by
    grind
  rw [hset, hmarks]
  simp [hsuccs]

/-- The step at which a block is met again: it is finished. -/
theorem step_done (hb : w.marks[b]? = some .done) (h : w.step f b rest = .ok w') :
    w' = { w with stack := rest, finished := b :: w.finished } := by
  simp only [step, hb] at h
  exact (Except.pure_eq_ok.1 h).symm

theorem run_succ {fuel : Nat} (hw : w.stack = b :: rest) (h : w.step f b rest = .ok w') :
    w.run f (fuel + 1) = w'.run f fuel := by
  simp only [run, hw, h]
  rfl

/-- A block is met: it claims its successors, which go on top of it on the stack. -/
theorem Sound.meet (hc : f.Consistent) (h : w.Sound f) (hw : w.stack = b :: rest)
    (hb : w.marks[b]? = some .seen) (htaken : ∀ c, c ∈ taken ↔ c ∈ w.trail) :
    ∃ w₁ : Walk, w.step f b rest = .ok w₁ ∧ w₁.Sound f ∧ w₁.work + 1 = w.work ∧
      w₁.stack = (f.succsOf b).filter (· ∉ taken) ++ b :: rest ∧ w₁.finished = w.finished ∧
      (∀ c ∈ (f.succsOf b).filter (· ∉ taken), w₁.marks[c]? = some .seen) ∧
      (∀ c, c ∈ taken ++ (f.succsOf b).filter (· ∉ taken) ↔ c ∈ w₁.trail) ∧
      w₁.marks[b]? = some .done ∧ ∀ c ∈ rest, w₁.marks[c]? = w.marks[c]? := by
  obtain ⟨w₁, hstep, h₁, hwork⟩ := h.step hc hw
  obtain ⟨hstack, hfinished, hmarks⟩ := step_seen hc hb hstep
  have hunseen {c : BlockId} (hlt : c < w.marks.size) :
      w.marks[c]? = some .unseen ↔ c ∉ taken := by
    rw [htaken, h.mem_trail, Array.getElem?_eq_getElem hlt]
    cases w.marks[c] <;> simp
  have hsucc {c : BlockId} (hcs : c ∈ f.succsOf b) : w.marks[c]? = some .unseen ↔ c ∉ taken :=
    hunseen (h.size ▸ hc.edges.succ_lt hcs)
  have hon {c : BlockId} (hcs : c ∈ w.stack) : c ∈ taken :=
    (htaken c).2 (List.mem_append_left _ (List.mem_reverse.2 hcs))
  rw [List.filter_congr fun c hcs => decide_eq_decide.2 (hsucc hcs)] at hstack
  refine ⟨w₁, hstep, h₁, hwork, hw ▸ hstack, hfinished, fun c hcs => ?_, fun c => ?_, ?_,
    fun c hcr => ?_⟩
  · obtain ⟨hcsucc, hnot⟩ := mem_claimed.1 hcs
    have hne : c ≠ b := by
      rintro rfl
      exact hnot (hon (hw ▸ List.mem_cons_self))
    rw [hmarks, if_neg hne, if_pos ⟨hcsucc, (hsucc hcsucc).2 hnot⟩]
  · simp only [trail, hstack, hfinished, htaken, List.mem_append, List.mem_reverse]
    tauto
  · rw [hmarks, if_pos rfl]
  · have hne : c ≠ b := by
      rintro rfl
      have hnodup : w.stack.Nodup := List.nodup_reverse.1 (List.Nodup.of_append_left h.nodup)
      rw [hw] at hnodup
      exact (List.nodup_cons.1 hnodup).1 hcr
    have hcs : c ∈ taken := hon (hw ▸ List.mem_cons_of_mem _ hcr)
    rw [hmarks, if_neg hne, if_neg fun hboth => (hsucc hboth.1).1 hboth.2 hcs]

/-- The walk follows the blocks that were put on the stack, and comes back to what is below them on
the stack. -/
theorem Sound.traverse (hc : f.Consistent) (h : w.Sound f) (hw : w.stack = agenda ++ rest)
    (hagenda : ∀ b ∈ agenda, w.marks[b]? = some .seen) (htaken : ∀ c, c ∈ taken ↔ c ∈ w.trail) :
    ∃ (t : Forest) (taken' : List BlockId) (w' : Walk) (k : Nat),
      f.Claims agenda taken t taken' ∧
      (∀ fuel, w.run f (fuel + k) = w'.run f fuel) ∧ w'.work + k = w.work ∧ w'.Sound f ∧
      w'.stack = rest ∧ w'.finished = t.order ++ w.finished ∧
      (∀ c, c ∈ taken' ↔ c ∈ w'.trail) ∧ ∀ b ∈ rest, w'.marks[b]? = w.marks[b]? := by
  induction hn : w.work using Nat.strongRecOn generalizing w agenda rest taken with
  | _ n ih =>
  subst hn
  cases agenda with
  | nil =>
    exact ⟨.nil, taken, w, 0, .nil, fun _ => rfl, rfl, h, hw, rfl, htaken, fun _ _ => rfl⟩
  | cons b agenda =>
    obtain ⟨hb, hagenda⟩ := List.forall_mem_cons.1 hagenda
    obtain ⟨w₁, hstep₁, h₁, hwork₁, hstack₁, hfinished₁, hseen₁, htaken₁, hdone₁, hmarks₁⟩ :=
      h.meet hc hw hb htaken
    -- What the block claims is followed, and then the block is on top of the stack again.
    obtain ⟨below, taken', w₂, k₂, hbelow, hrun₂, hwork₂, h₂, hstack₂, hfinished₂, htaken₂,
      hmarks₂⟩ := ih w₁.work (by omega) h₁ hstack₁ hseen₁ htaken₁ rfl
    have hdone : w₂.marks[b]? = some .done := (hmarks₂ b List.mem_cons_self).trans hdone₁
    obtain ⟨w₃, hstep₃, h₃, hwork₃⟩ := h₂.step hc hstack₂
    obtain rfl := step_done hdone hstep₃
    have htaken₃ (c : BlockId) : c ∈ taken' ↔
        c ∈ (Walk.mk w₂.marks (agenda ++ rest) (b :: w₂.finished)).trail := by
      rw [htaken₂]
      simp [trail, hstack₂]
    have hkeep (c : BlockId) (hcr : c ∈ agenda ++ rest) : w₂.marks[c]? = w.marks[c]? :=
      (hmarks₂ c (List.mem_cons_of_mem _ hcr)).trans (hmarks₁ c hcr)
    have hseen₃ (c : BlockId) (hca : c ∈ agenda) : w₂.marks[c]? = some .seen :=
      (hkeep c (List.mem_append_left _ hca)).trans (hagenda c hca)
    -- The blocks beside it are followed.
    obtain ⟨beside, taken'', w₄, k₄, hbeside, hrun₄, hwork₄, h₄, hstack₄, hfinished₄, htaken₄,
      hmarks₄⟩ := ih _ (by omega) h₃ rfl hseen₃ htaken₃ rfl
    refine ⟨.node b below beside, taken'', w₄, k₄ + 1 + k₂ + 1, .cons hbelow hbeside,
      fun fuel => ?_, by omega, h₄, hstack₄, ?_, htaken₄, fun c hcr => ?_⟩
    · calc w.run f (fuel + (k₄ + 1 + k₂ + 1))
        _ = w.run f (fuel + k₄ + 1 + k₂ + 1) := congrArg (Walk.run f · w) (by omega)
        _ = w₁.run f (fuel + k₄ + 1 + k₂) := run_succ hw hstep₁
        _ = w₂.run f (fuel + k₄ + 1) := hrun₂ _
        _ = _ := run_succ hstack₂ hstep₃
        _ = w₄.run f fuel := hrun₄ fuel
    · rw [hfinished₄, hfinished₂, hfinished₁, Forest.order, List.append_assoc, List.cons_append]
    · exact (hmarks₄ c hcr).trans (hkeep c (List.mem_append_right _ hcr))

end Walk

/-! ### The order -/

/-- The order is the reverse post order of the forest that is followed from the entry. -/
theorem exists_forest (hc : f.Consistent) (hf : 0 < f.blocks.size) :
    ∃ t taken, f.Claims [0] [0] t taken ∧ f.order = .ok t.order := by
  have hstack₀ : (Walk.start f.blocks.size 0).stack = [0] ++ [] := rfl
  have htaken₀ (c : BlockId) : c ∈ [0] ↔ c ∈ (Walk.start f.blocks.size 0).trail := by
    simp [Walk.trail, Walk.start]
  obtain ⟨t, taken, w, k, hclaims, hrun, hwork, -, hstack, hfinished, -, -⟩ :=
    (Walk.sound_start hf).traverse hc hstack₀ (by simp [Walk.start, hf]) htaken₀
  refine ⟨t, taken, hclaims, ?_⟩
  obtain ⟨fuel, hfuel⟩ : ∃ fuel, 2 * f.blocks.size + 1 = fuel + 1 + k :=
    ⟨w.work, by rw [Walk.work_start hf] at hwork; omega⟩
  rw [order, if_neg (by simpa [isDeclaration] using Nat.ne_of_gt hf), hfuel, hrun]
  simp [Walk.run, hstack, hfinished, Walk.start]

theorem Claims.exists_shortcut_of_entry (h : f.Claims [b] [b] t taken) (hwaits : t.Waits u v) :
    ∃ p, p ≠ u ∧ v ∈ f.succsOf p ∧ f.Leads p u := by
  cases h with
  | cons hbelow hbeside =>
    cases hbeside
    rcases hwaits with ⟨-, hv⟩ | hwaits | hwaits
    · cases hv
    · exact hbelow.exists_shortcut (List.subset_append_right _ _) (by simp)
        (fun hmem => (mem_claimed.1 hmem).2 List.mem_cons_self) (fun r hr => (mem_claimed.1 hr).1)
        hwaits
    · exact hwaits.elim

theorem order_of_dominators {d : Dominators} (h : f.dominators = .ok d) :
    f.order = .ok d.order := by
  obtain ⟨order, horder, h⟩ := Except.bind_eq_ok.1 h
  rw [horder]
  cases order with
  | nil => rw [← Except.pure_eq_ok.1 h]
  | cons entry rest =>
    obtain ⟨idom, -, h⟩ := Except.bind_eq_ok.1 h
    rw [← Except.pure_eq_ok.1 h]

/-- The order of the blocks lists the reachable blocks, each once and the entry first. It is the
reverse post order of the forest in which every block has below it the successors that were not
claimed when it was met. An edge without a way back leads forwards in the order, unless it leads to
a block that waits. In this case it leads backwards, and from another predecessor of that block
there is a way to the start of the edge. -/
theorem order_follows_forest (hf : f.Built) : ∃ d t taken,
    f.dominators = .ok d ∧ d.order.Nodup ∧ d.order.head? = f.blockIds.head? ∧
    (∀ b, b ∈ d.order ↔ f.Reachable b) ∧
    f.Claims f.blockIds.head?.toList f.blockIds.head?.toList t taken ∧ d.order = t.order ∧
    ∀ u v, f.Reachable u → v ∈ f.succsOf u → ¬f.Leads v u →
      ([u, v].Sublist d.order ↔ ¬t.Waits u v) ∧
      (t.Waits u v → [v, u].Sublist d.order ∧ ∃ p, p ≠ u ∧ v ∈ f.succsOf p ∧ f.Leads p u) := by
  have hc := hf.consistent
  obtain ⟨d, hd, -⟩ := exists_dominators hc
  have horder := order_of_dominators hd
  by_cases hblocks : 0 < f.blocks.size
  · obtain ⟨order, horder', he⟩ := exists_order hc hblocks
    obtain ⟨t, taken, hclaims, hforest⟩ := exists_forest hc hblocks
    obtain rfl := Except.ok.inj (horder'.symm.trans horder)
    have htree : d.order = t.order := Except.ok.inj (horder.symm.trans hforest)
    have hhead : f.blockIds.head? = some 0 := by
      obtain ⟨n, hn⟩ := Nat.exists_eq_succ_of_ne_zero (Nat.ne_of_gt hblocks)
      rw [blockIds, hn, List.range_succ_eq_map]
      rfl
    refine ⟨d, t, taken, hd, he.nodup, he.head.trans hhead.symm, fun b => he.mem_iff,
      by rw [hhead]; exact hclaims, htree, fun u v hu huv hback => ?_⟩
    have hwaits (h : t.Waits u v) : [v, u].Sublist d.order := htree ▸ h.sublist
    refine ⟨⟨fun hsub h => ?_, fun hnot => ?_⟩,
      fun h => ⟨hwaits h, hclaims.exists_shortcut_of_entry h⟩⟩
    · have hlt := Dominators.idxOf_lt_of_sublist he.nodup hsub
      have hgt := Dominators.idxOf_lt_of_sublist he.nodup (hwaits h)
      omega
    · rw [htree]
      rcases hclaims.edge_cases (htree ▸ he.mem_iff.2 hu) (htree ▸ he.mem_iff.2 (hu.step huv))
        huv with h | h | h
      · exact h
      · exact absurd h hnot
      · exact absurd h hback
  · have hempty : f.blocks.size = 0 := Nat.eq_zero_of_not_pos hblocks
    have hhead : f.blockIds.head? = none := by simp [blockIds, hempty]
    have hnil : d.order = [] := by
      rw [order, if_pos (by simpa [isDeclaration] using hempty)] at horder
      exact (Except.ok.inj horder).symm
    have hno (b : BlockId) : ¬f.Reachable b := fun hb =>
      absurd (hb.lt_size hc) (by rw [hempty]; exact Nat.not_lt_zero b)
    refine ⟨d, .nil, [], hd, ?_, ?_, fun b => ?_, ?_, hnil, fun u v hu => absurd hu (hno u)⟩
    · rw [hnil]
      exact List.nodup_nil
    · rw [hnil, hhead]
      rfl
    · simp [hnil, hno b]
    · rw [hhead]
      exact .nil

/-- The entry of this function branches to both other blocks, and the first of them goes on to the
second. -/
def triangle : Func :=
  (sampleStart.assemble [] [[.icmp .eq 3 1 1, .condBr 2 1 2], [.br 2], [.ret (some 1)]]).getD
    sampleStart

theorem built_triangle : triangle.Built := built_assembled _ _

/-- The last block waits while the one before it is met, and comes before it in the order. -/
theorem order_follows_forest_triangle : triangle.Built ∧ 2 ∈ triangle.succsOf 1 ∧
    ¬triangle.Leads 2 1 ∧ ∃ d t taken, triangle.dominators = .ok d ∧ d.order = [0, 2, 1] ∧
      triangle.Claims [0] [0] t taken ∧ d.order = t.order ∧ t.Waits 1 2 ∧
      ¬[1, 2].Sublist d.order ∧ ∃ p, p ≠ 1 ∧ 2 ∈ triangle.succsOf p ∧ triangle.Leads p 1 := by
  have hedge : 2 ∈ triangle.succsOf 1 := by decide +kernel
  have hlast : triangle.succsOf 2 = [] := by decide +kernel
  have hback : ¬triangle.Leads 2 1 := by
    intro hleads
    obtain heq | ⟨c, hc, -⟩ := hleads.cases_head
    · exact absurd heq (by decide)
    · rw [hlast] at hc
      exact List.not_mem_nil hc
  have hreach : triangle.Reachable 1 := by
    have hentry : triangle.Reachable 0 := .entry (by decide +kernel)
    exact hentry.step (by decide +kernel)
  have hhead : triangle.blockIds.head? = some 0 := by decide +kernel
  have hknown : triangle.order = .ok [0, 2, 1] := by decide +kernel
  obtain ⟨d, t, taken, hd, -, -, -, hclaims, htree, hedges⟩ := order_follows_forest built_triangle
  have horder : d.order = [0, 2, 1] :=
    Except.ok.inj ((order_of_dominators hd).symm.trans hknown)
  obtain ⟨hforwards, hshortcut⟩ := hedges 1 2 hreach hedge hback
  have hnot : ¬[1, 2].Sublist d.order := by
    rw [horder]
    decide
  have hwaits : t.Waits 1 2 := not_not.1 (mt hforwards.2 hnot)
  rw [hhead] at hclaims
  exact ⟨built_triangle, hedge, hback, d, t, taken, hd, horder, hclaims, htree, hwaits, hnot,
    (hshortcut hwaits).2⟩

end Func

end Codegen
