import Codegen.Func.Order
import Codegen.Proofs.Paths

/-!
# The walk over the blocks

The blocks on the stack, bottom first, followed by the finished blocks form the *trail* of the walk.
Finishing a block leaves the trail as it is, and a block that goes on the stack is added to the
trail behind the block from which it was met. When the stack is empty the trail is the order, so
every block of the order but the entry stands behind one of its predecessors. Since blocks are
marked when they go on the stack, this is all that the order promises: it need not be a reverse
postorder.

## Main definitions

* `Func.Walk.trail`, `Func.Walk.work`: the trail, and the number of steps that are left.
* `Func.Walk.Sound`: the invariant of the walk.
* `Func.Enumerates`: what the order promises.

## Main results

* `Func.exists_order`: the walk ends, and its order lists the reachable blocks, each once and behind
  one of its predecessors.
-/

namespace Codegen.Func

variable {f : Func} {b s : BlockId}

theorem exists_block_eq_ok (h : b < f.blocks.size) :
    ∃ blk, f.block b = .ok blk ∧ f.blocks[b]? = some blk := by
  refine ⟨f.blocks[b], ?_, Array.getElem?_eq_getElem h⟩
  rw [block, Array.getElem?_eq_getElem h]

/-- How a sum over a list changes with one element of the list. -/
theorem sum_map_set {α : Type} (g : α → Nat) {l : List α} {n : Nat} {x y : α} (h : l[n]? = some x) :
    ((l.set n y).map g).sum + g x = (l.map g).sum + g y := by
  induction l generalizing n with
  | nil => simp at h
  | cons a l ih =>
    cases n with
    | zero =>
      obtain rfl : a = x := by simpa using h
      simp only [List.set_cons_zero, List.map_cons, List.sum_cons]
      omega
    | succ n =>
      have := ih (n := n) (by simpa using h)
      simp only [List.set_cons_succ, List.map_cons, List.sum_cons]
      omega

/-- What the order of the blocks promises. -/
structure Enumerates (f : Func) (order : List BlockId) : Prop where
  /-- No block is listed twice. -/
  nodup : order.Nodup
  /-- The entry is the first block. -/
  head : order.head? = some 0
  /-- The blocks of the order are the reachable ones. -/
  mem_iff : ∀ {b}, b ∈ order ↔ f.Reachable b
  /-- Every block but the entry stands behind one of its predecessors. -/
  pred : ∀ {s}, s ∈ order → s ≠ 0 → ∃ p, s ∈ f.succsOf p ∧ [p, s].Sublist order

theorem Enumerates.entry_mem {order : List BlockId} (h : f.Enumerates order) : 0 ∈ order :=
  List.mem_of_mem_head? h.head

theorem Enumerates.eq_cons {order : List BlockId} (h : f.Enumerates order) :
    order = 0 :: order.tail := by
  have hhead := h.head
  cases order with
  | nil => cases hhead
  | cons b order => simpa using hhead

/-- The steps that a block with a mark still needs, apart from the one that takes it off the stack
if it is there. -/
def Mark.work : Mark → Nat
  | .unseen => 2
  | .seen => 1
  | .done => 0

namespace Walk

variable {w w' : Walk}

/-- The blocks on the stack, bottom first, and then the finished blocks. -/
def trail (w : Walk) : List BlockId := w.stack.reverse ++ w.finished

/-- The number of steps that are left. -/
def work (w : Walk) : Nat := (w.marks.toList.map Mark.work).sum + w.stack.length

/-- The invariant of the walk. -/
structure Sound (f : Func) (w : Walk) : Prop where
  /-- Every block has a mark. -/
  size : w.marks.size = f.blocks.size
  /-- No block is twice on the trail. -/
  nodup : w.trail.Nodup
  /-- The trail starts at the entry. -/
  head : w.trail.head? = some 0
  /-- The blocks on the trail are those that were seen. -/
  mem_trail : ∀ {b}, b ∈ w.trail ↔ w.marks[b]? = some .seen ∨ w.marks[b]? = some .done
  /-- The blocks on the trail are reachable. -/
  reachable : ∀ {b}, b ∈ w.trail → f.Reachable b
  /-- Every block on the trail but the entry stands behind one of its predecessors. -/
  pred : ∀ {s}, s ∈ w.trail → s ≠ 0 → ∃ p, s ∈ f.succsOf p ∧ [p, s].Sublist w.trail
  /-- The successors of a block that is done are on the trail. -/
  succ : ∀ {b s}, w.marks[b]? = some .done → s ∈ f.succsOf b → s ∈ w.trail
  /-- The finished blocks are done. -/
  finished : ∀ {b}, b ∈ w.finished → w.marks[b]? = some .done

/-- The walk has put some more blocks on the stack. -/
structure Extends (w w' : Walk) : Prop where
  stack : w.stack <:+ w'.stack
  finished : w'.finished = w.finished
  work : w'.work = w.work
  seen : ∀ {b : BlockId}, w.marks[b]? = some .seen → w'.marks[b]? = some .seen

theorem Extends.refl (w : Walk) : w.Extends w := ⟨List.suffix_refl _, rfl, rfl, id⟩

theorem Extends.trans {w'' : Walk} (h : w.Extends w') (h' : w'.Extends w'') : w.Extends w'' :=
  ⟨h.stack.trans h'.stack, h'.finished.trans h.finished, h'.work.trans h.work,
    fun hb => h'.seen (h.seen hb)⟩

theorem Extends.mem_trail (h : w.Extends w') (hb : b ∈ w.trail) : b ∈ w'.trail := by
  simp only [trail, List.mem_append, List.mem_reverse, h.finished] at hb ⊢
  exact hb.imp_left fun hb => h.stack.subset hb

theorem work_set {m : Mark} (m' : Mark) (hm : w.marks[b]? = some m)
    (stack finished : List BlockId) :
    (Walk.mk (w.marks.setIfInBounds b m') stack finished).work + m.work + w.stack.length =
      w.work + m'.work + stack.length := by
  have := sum_map_set Mark.work (l := w.marks.toList) (n := b) (y := m') (by simpa using hm)
  simp only [work, Array.toList_setIfInBounds]
  omega

/-! ### Putting blocks on the stack -/

/-- The walk when a block has gone on the stack. -/
def met (w : Walk) (s : BlockId) : Walk where
  marks := w.marks.setIfInBounds s .seen
  stack := s :: w.stack
  finished := w.finished

theorem trail_met : (w.met s).trail = w.stack.reverse ++ s :: w.finished := by
  simp [met, trail]

theorem mem_trail_met : b ∈ (w.met s).trail ↔ b = s ∨ b ∈ w.trail := by
  rw [trail_met, List.perm_middle.mem_iff, List.mem_cons, trail]

theorem getElem?_marks_met (hs : s < w.marks.size) :
    (w.met s).marks[b]? = if b = s then some .seen else w.marks[b]? := by
  unfold met
  grind

theorem sublist_trail_met : w.trail.Sublist (w.met s).trail := by
  rw [trail_met]
  exact (List.Sublist.refl _).append (List.sublist_cons_self _ _)

theorem extends_met (hm : w.marks[s]? = some .unseen) : w.Extends (w.met s) := by
  have hlt : s < w.marks.size := (Array.getElem?_eq_some_iff.1 hm).1
  refine ⟨List.suffix_cons _ _, rfl, ?_, fun {c} hcs => ?_⟩
  · have := work_set .seen hm (s :: w.stack) w.finished
    simp only [Mark.work, List.length_cons] at this
    simp only [met]
    omega
  · rw [getElem?_marks_met hlt]
    split
    · rfl
    · exact hcs

/-- A successor of a block on the stack may go on the stack. -/
theorem Sound.met (h : w.Sound f) (hb : b ∈ w.stack) (hs : s ∈ f.succsOf b)
    (hm : w.marks[s]? = some .unseen) : (w.met s).Sound f := by
  have hlt : s < w.marks.size := (Array.getElem?_eq_some_iff.1 hm).1
  have hnot : s ∉ w.trail := by simp [h.mem_trail, hm]
  refine ⟨by simpa [Walk.met] using h.size, ?_, ?_, fun {c} => ?_, fun {c} hct => ?_,
    fun {c} hct hc0 => ?_, fun {c t} hd ht => ?_, fun {c} hcf => ?_⟩
  · rw [trail_met, List.perm_middle.nodup_iff]
    exact List.nodup_cons.2 ⟨hnot, h.nodup⟩
  · have hne : w.stack.reverse ≠ [] := by
      rw [Ne, List.reverse_eq_nil_iff]
      exact List.ne_nil_of_mem hb
    have hh := h.head
    rw [trail, List.head?_append_of_ne_nil _ hne] at hh
    rw [trail_met, List.head?_append_of_ne_nil _ hne, hh]
  · rw [mem_trail_met, h.mem_trail]
    simp only [getElem?_marks_met hlt]
    split <;> simp [*]
  · rcases mem_trail_met.1 hct with rfl | hct
    · exact (h.reachable (by simp [trail, hb])).step hs
    · exact h.reachable hct
  · rcases mem_trail_met.1 hct with rfl | hct
    · refine ⟨b, hs, ?_⟩
      rw [trail_met]
      exact (List.singleton_sublist.2 (List.mem_reverse.2 hb)).append
        (List.singleton_sublist.2 List.mem_cons_self)
    · obtain ⟨p, hp, hps⟩ := h.pred hct hc0
      exact ⟨p, hp, hps.trans sublist_trail_met⟩
  · rw [getElem?_marks_met hlt] at hd
    rw [mem_trail_met]
    split at hd
    · cases hd
    · exact .inr (h.succ hd ht)
  · rw [getElem?_marks_met hlt, if_neg]
    · exact h.finished hcf
    · rintro rfl
      exact hnot (List.mem_append_right _ hcf)

/-- A successor of a block on the stack goes on the trail, if it was not there before. -/
theorem Sound.push (hc : f.Consistent) (h : w.Sound f) (hb : b ∈ w.stack) (hs : s ∈ f.succsOf b) :
    ∃ w', w.push s = .ok w' ∧ w'.Sound f ∧ w.Extends w' ∧ s ∈ w'.trail := by
  have hlt : s < w.marks.size := h.size ▸ hc.edges.succ_lt hs
  obtain ⟨m, hm⟩ : ∃ m, w.marks[s]? = some m := ⟨_, Array.getElem?_eq_getElem hlt⟩
  rw [Walk.push, hm]
  cases m with
  | seen => exact ⟨w, rfl, h, .refl w, h.mem_trail.2 (.inl hm)⟩
  | done => exact ⟨w, rfl, h, .refl w, h.mem_trail.2 (.inr hm)⟩
  | unseen => exact ⟨w.met s, rfl, h.met hb hs hm, extends_met hm, mem_trail_met.2 (.inl rfl)⟩

theorem Sound.pushes (hc : f.Consistent) {l : List BlockId} (h : w.Sound f) (hb : b ∈ w.stack)
    (hl : ∀ s ∈ l, s ∈ f.succsOf b) :
    ∃ w', l.foldlM Walk.push w = .ok w' ∧ w'.Sound f ∧ w.Extends w' ∧ ∀ s ∈ l, s ∈ w'.trail := by
  induction l generalizing w with
  | nil => exact ⟨w, rfl, h, .refl w, by simp⟩
  | cons s l ih =>
    obtain ⟨w₁, hw₁, h₁, he₁, hs₁⟩ := h.push hc hb (hl s List.mem_cons_self)
    obtain ⟨w₂, hw₂, h₂, he₂, hs₂⟩ :=
      ih h₁ (he₁.stack.subset hb) fun s hs => hl s (List.mem_cons_of_mem _ hs)
    refine ⟨w₂, ?_, h₂, he₁.trans he₂, ?_⟩
    · rw [List.foldlM_cons]
      exact Except.bind_eq_ok.2 ⟨w₁, hw₁, hw₂⟩
    · rw [List.forall_mem_cons]
      exact ⟨he₂.mem_trail hs₁, hs₂⟩

/-! ### Steps and runs -/

/-- A block whose successors are all on the trail may be marked as done. -/
theorem Sound.mark_done (h : w.Sound f) (hb : w.marks[b]? = some .seen)
    (hs : ∀ s ∈ f.succsOf b, s ∈ w.trail) :
    Sound f { w with marks := w.marks.setIfInBounds b .done } := by
  have hmarks (c : BlockId) : (w.marks.setIfInBounds b .done)[c]? =
      if c = b then some .done else w.marks[c]? := by
    grind
  refine ⟨by simpa using h.size, h.nodup, h.head, fun {c} => ?_, h.reachable, h.pred,
    fun {c t} hd ht => ?_, fun {c} hcf => ?_⟩
  · simp only [hmarks]
    refine Iff.trans h.mem_trail ?_
    split <;> simp [*]
  · simp only [hmarks] at hd
    split at hd
    · next hcb => exact hs t (hcb ▸ ht)
    · exact h.succ hd ht
  · simp only [hmarks]
    split
    · rfl
    · exact h.finished hcf

/-- One step keeps the invariant and takes one off the work. -/
theorem Sound.step (hc : f.Consistent) {rest : List BlockId} (h : w.Sound f)
    (hw : w.stack = b :: rest) :
    ∃ w', w.step f b rest = .ok w' ∧ w'.Sound f ∧ w'.work + 1 = w.work := by
  have hbs : b ∈ w.stack := by simp [hw]
  have hbt : b ∈ w.trail := by simp [trail, hbs]
  rcases h.mem_trail.1 hbt with hm | hm
  · have hlt : b < f.blocks.size := h.size ▸ (Array.getElem?_eq_some_iff.1 hm).1
    obtain ⟨blk, hblk, hget⟩ := exists_block_eq_ok hlt
    obtain ⟨w₁, hw₁, h₁, he, hs⟩ := h.pushes hc (l := blk.succs.reverse) hbs
      (by simp [succs_eq_succsOf hget])
    have hm₁ := he.seen hm
    refine ⟨{ w₁ with marks := w₁.marks.setIfInBounds b .done }, ?_, ?_, ?_⟩
    · simp only [Walk.step, hm]
      exact Except.bind_eq_ok.2 ⟨blk, hblk, Except.bind_eq_ok.2 ⟨w₁, hw₁, rfl⟩⟩
    · exact h₁.mark_done hm₁ (by simpa [succs_eq_succsOf hget] using hs)
    · have := work_set .done hm₁ w₁.stack w₁.finished
      simp only [Mark.work] at this
      have := he.work
      omega
  · refine ⟨{ w with stack := rest, finished := b :: w.finished }, ?_, ?_, ?_⟩
    · simp only [Walk.step, hm]
      rfl
    · have htrail : (Walk.mk w.marks rest (b :: w.finished)).trail = w.trail := by
        simp [trail, hw]
      refine ⟨h.size, htrail ▸ h.nodup, htrail ▸ h.head, htrail ▸ h.mem_trail, htrail ▸ h.reachable,
        htrail ▸ h.pred, htrail ▸ h.succ, fun {c} hcf => ?_⟩
      rcases List.mem_cons.1 hcf with rfl | hcf
      · exact hm
      · exact h.finished hcf
    · simp [work, hw]
      omega

/-- When the stack is empty, the finished blocks are an order as promised. -/
theorem Sound.enumerates (h : w.Sound f) (hw : w.stack = []) : f.Enumerates w.finished := by
  have htrail : w.trail = w.finished := by simp [trail, hw]
  have hentry : 0 ∈ w.finished := htrail ▸ List.mem_of_mem_head? h.head
  refine ⟨htrail ▸ h.nodup, htrail ▸ h.head, fun {b} => ⟨htrail ▸ h.reachable, fun hr => ?_⟩,
    htrail ▸ h.pred⟩
  induction hr with
  | entry => exact hentry
  | step _ hs ih => exact htrail ▸ h.succ (h.finished ih) hs

theorem Sound.run (hc : f.Consistent) (fuel : Nat) (h : w.Sound f) (hfuel : w.work < fuel) :
    ∃ order, w.run f fuel = .ok order ∧ f.Enumerates order := by
  induction fuel generalizing w with
  | zero => omega
  | succ fuel ih =>
    cases hw : w.stack with
    | nil => exact ⟨w.finished, by simp [Walk.run, hw], h.enumerates hw⟩
    | cons b rest =>
      obtain ⟨w', hw', h', hwork⟩ := h.step hc hw
      obtain ⟨order, ho, hord⟩ := ih h' (by omega)
      refine ⟨order, ?_, hord⟩
      rw [Walk.run, hw]
      exact Except.bind_eq_ok.2 ⟨w', hw', ho⟩

theorem sound_start (hf : 0 < f.blocks.size) : Sound f (start f.blocks.size 0) := by
  have hmarks (c : BlockId) : (start f.blocks.size 0).marks[c]? =
      if c = 0 then some .seen else if c < f.blocks.size then some .unseen else none := by
    simp only [start]
    grind
  refine ⟨by simp [start], by simp [trail, start], by simp [trail, start], fun {c} => ?_,
    fun {c} hct => ?_, fun {c} hct hc0 => ?_, fun {c t} hd => ?_, fun {c} hcf => ?_⟩
  · rw [hmarks]
    by_cases h0 : c = 0
    · simp [trail, start, h0]
    · by_cases hlt : c < f.blocks.size <;> simp [trail, start, h0, hlt]
  · obtain rfl : c = 0 := by simpa [trail, start] using hct
    exact .entry hf
  · exact absurd (by simpa [trail, start] using hct) hc0
  · rw [hmarks] at hd
    grind
  · simp [start] at hcf

theorem work_start (hf : 0 < f.blocks.size) :
    (start f.blocks.size 0).work = 2 * f.blocks.size := by
  have := sum_map_set Mark.work (l := List.replicate f.blocks.size Mark.unseen) (n := 0)
    (x := .unseen) (y := .seen) (by simp [hf])
  simp [Mark.work, work, start] at this ⊢
  omega

end Walk

/-- The walk ends with an order as promised. -/
theorem exists_order (hc : f.Consistent) (hf : 0 < f.blocks.size) :
    ∃ order, f.order = .ok order ∧ f.Enumerates order := by
  obtain ⟨order, ho, h⟩ := (Walk.sound_start hf).run hc
    (2 * f.blocks.size + 1) (by rw [Walk.work_start hf]; omega)
  refine ⟨order, ?_, h⟩
  rw [Func.order, if_neg (by simpa [isDeclaration] using Nat.ne_of_gt hf)]
  exact ho

end Codegen.Func
