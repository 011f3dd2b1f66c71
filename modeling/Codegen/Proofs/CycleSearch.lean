import Codegen.Graph.Check
import Codegen.Proofs.Answer

/-!
# The search for cycles

The search follows the data edges from node to node. The nodes on the way to the one that it looks
at are grey, and each of them reads the next one. A node is black when everything that it reads is
black. A grey operand therefore closes a cycle, and no black node is on one: whatever a black node
leads to was black before the node itself.

## Main definitions

* `Graph.Reads`: the data edges.
* `Graph.Search.work`: a bound for the steps that a search still makes.
* `Graph.Search.Sound`: the invariant of a search.

## Main results

* `Graph.Search.stack_eq_nil_of_run`: a search is at its end when it has used up its steps.
* `Graph.checkAcyclic_cases`: the search passes the graphs without a cycle and reports a cycle in
  all others.
-/

namespace Codegen.Graph

variable {ω : Type} {g : Graph ω} {n m : NodeId} {node : Node ω}

/-- Node `n` reads node `m`. -/
def Reads (g : Graph ω) (n m : NodeId) : Prop :=
  ∃ node, g.nodes[n]? = some node ∧ some m ∈ node.args

/-- All operands are nodes of the graph. -/
def ArgsExist (g : Graph ω) : Prop :=
  ∀ (n : NodeId) (node : Node ω), g.nodes[n]? = some node → ∀ r ∈ node.args,
    ∃ m < g.nodes.size, r = some m

/-- The operands of the node with a number. -/
def argsOf (g : Graph ω) (n : NodeId) : List NodeRef := (g.nodes[n]?.map (·.args)).getD []

theorem mem_argsOf : some m ∈ g.argsOf n ↔ g.Reads n m := by
  cases h : g.nodes[n]? with
  | none => simp [argsOf, Reads, h]
  | some node => simp [argsOf, Reads, h]

theorem ArgsExist.argsOf (hg : g.ArgsExist) : ∀ r ∈ g.argsOf n, ∃ m < g.nodes.size, r = some m := by
  cases h : g.nodes[n]? with
  | none => simp [Graph.argsOf, h]
  | some node => simpa [Graph.argsOf, h] using hg n node h

/-- The edges of all nodes and one step for each node are the steps that a search may make. -/
theorem sum_argsOf (g : Graph ω) :
    ∑ n ∈ Finset.range g.nodes.size, ((g.argsOf n).length + 1) = g.searchSteps := by
  have hnode (n : Fin g.nodes.toList.length) :
      (g.argsOf n).length + 1 = g.nodes.toList[n.1].args.length + 1 := by
    simp [argsOf]
  calc ∑ n ∈ Finset.range g.nodes.size, ((g.argsOf n).length + 1)
      = ∑ n : Fin g.nodes.toList.length, (g.nodes.toList[n.1].args.length + 1) := by
        rw [← Array.length_toList, Finset.sum_range]
        exact Finset.sum_congr rfl fun n _ => hnode n
    _ = (g.nodes.toList.map fun node => node.args.length + 1).sum :=
        Fin.sum_univ_fun_getElem g.nodes.toList fun node => node.args.length + 1
    _ = g.searchSteps := by
        rw [List.sum_map_add, searchSteps, List.length_flatMap]
        simp [Nat.add_comm]

namespace Search

variable {s s' : Search} {colours : Array Colour} {args : List NodeRef}
  {rest : List (NodeId × List NodeRef)}

theorem enter_eq (g : Graph ω) (s : Search) (n : NodeId) :
    s.enter g n = ⟨s.colours.setIfInBounds n .grey, (n, g.argsOf n) :: s.stack⟩ := by
  unfold enter argsOf
  cases g.nodes[n]? <;> rfl

/-! ### The end of a search -/

/-- The nodes that were not looked at. -/
def whites (colours : Array Colour) : Finset NodeId :=
  {n ∈ Finset.range colours.size | colours[n]? = some .white}

theorem mem_whites : n ∈ whites colours ↔ colours[n]? = some .white := by
  rw [whites, Finset.mem_filter, Finset.mem_range, and_iff_right_iff_imp]
  exact fun h => (Array.getElem?_eq_some_iff.1 h).1

/-- A node that gets another colour is no longer white. -/
theorem whites_set {c : Colour} (hc : c ≠ .white) :
    whites (colours.setIfInBounds n c) = (whites colours).erase n := by
  ext m
  simp only [Finset.mem_erase, mem_whites]
  by_cases hmn : m = n
  · subst hmn
    by_cases hm : m < colours.size <;> simp [hm, hc]
  · rw [Array.getElem?_setIfInBounds_ne (Ne.symm hmn)]
    simp [hmn]

theorem whites_set_subset (colours : Array Colour) (n : NodeId) {c : Colour} (hc : c ≠ .white) :
    whites (colours.setIfInBounds n c) ⊆ whites colours := by
  rw [whites_set hc]
  exact Finset.erase_subset n _

/-- The steps for the operands of the nodes that were not looked at and for those that are left on
the way, and one more for each node. -/
def work (g : Graph ω) (s : Search) : Nat :=
  ∑ n ∈ whites s.colours, ((g.argsOf n).length + 1) +
    (s.stack.map fun frame => frame.2.length + 1).sum

theorem work_enter (hn : s.colours[n]? = some .white) : (s.enter g n).work g = s.work g := by
  have hsum := Finset.add_sum_erase _ (fun n => (g.argsOf n).length + 1) (mem_whites.2 hn)
  simp only [enter_eq, work, whites_set (c := .grey) nofun, List.map_cons, List.sum_cons]
  omega

/-- Every step leaves less to do. -/
theorem work_step (h : s.step g = .ok s') (hs : s.stack ≠ []) : s'.work g < s.work g := by
  obtain ⟨colours, stack⟩ := s
  unfold step at h
  split at h
  · next hstack => exact absurd hstack hs
  · next n rest hstack =>
    obtain rfl : stack = (n, []) :: rest := hstack
    obtain rfl := Except.ok.inj h
    have hsum := Finset.sum_le_sum_of_subset (f := fun n => (g.argsOf n).length + 1)
      (whites_set_subset colours n (c := .black) nofun)
    simp only [work, List.map_cons, List.sum_cons]
    omega
  · next n arg args rest hstack =>
    obtain rfl : stack = (n, arg :: args) :: rest := hstack
    have hless : (⟨colours, (n, args) :: rest⟩ : Search).work g <
        (⟨colours, (n, arg :: args) :: rest⟩ : Search).work g := by
      simp [work]
    cases arg with
    | none => cases h
    | some a =>
      simp only at h
      split at h
      · cases h
      · cases h
      · next ha =>
        obtain rfl := Except.ok.inj h
        exact (work_enter (s := ⟨colours, (n, args) :: rest⟩) ha).trans_lt hless
      · obtain rfl := Except.ok.inj h
        exact hless

theorem run_nil (fuel : Nat) (colours : Array Colour) :
    run g fuel ⟨colours, []⟩ = .ok ⟨colours, []⟩ := by
  induction fuel with
  | zero => rfl
  | succ fuel ih => exact ih

/-- A search that gives an answer after as many steps as there can be is at its end. -/
theorem stack_eq_nil_of_run {fuel : Nat} (hwork : s.work g ≤ fuel) (h : s.run g fuel = .ok s') :
    s'.stack = [] := by
  induction fuel generalizing s with
  | zero =>
    obtain rfl := Except.ok.inj h
    cases hs : s.stack with
    | nil => rfl
    | cons frame rest => simp [work, hs] at hwork
  | succ fuel ih =>
    by_cases hs : s.stack = []
    · obtain ⟨colours, stack⟩ := s
      obtain rfl : stack = [] := hs
      rw [run_nil] at h
      rw [← Except.ok.inj h]
    · rw [run, Except.bind_eq_ok] at h
      obtain ⟨t, ht, h⟩ := h
      exact ih (Nat.le_of_lt_succ ((work_step ht hs).trans_le hwork)) h

/-- The steps that a search may make are enough for it. -/
theorem work_le_searchSteps (hsize : s.colours.size = g.nodes.size) (hs : s.stack = []) :
    s.work g ≤ g.searchSteps := by
  have hsum := Finset.sum_le_sum_of_subset (f := fun n => (g.argsOf n).length + 1)
    (Finset.filter_subset (fun n => s.colours[n]? = some Colour.white)
      (Finset.range s.colours.size))
  rw [work, hs, ← sum_argsOf, ← hsize]
  simpa [whites] using hsum

/-! ### The invariant -/

/-- The way of a search from its last node back to the first. Of the operands that were passed, all
are black except the node `next` to which the way goes on. -/
def Way (g : Graph ω) (colours : Array Colour) : NodeRef → List (NodeId × List NodeRef) → Prop
  | _, [] => True
  | next, (n, args) :: rest =>
    (∃ passed, g.argsOf n = passed ++ args ∧ (∀ m, next = some m → some m ∈ passed) ∧
      ∀ m, some m ∈ passed → next = some m ∨ colours[m]? = some .black) ∧
    Way g colours (some n) rest

/-- The invariant of a search. -/
structure Sound (g : Graph ω) (s : Search) : Prop where
  /-- Every node has a colour. -/
  size : s.colours.size = g.nodes.size
  /-- The grey nodes are those on the way. -/
  grey : ∀ {n}, s.colours[n]? = some .grey ↔ n ∈ s.stack.map Prod.fst
  /-- No node is twice on the way. -/
  nodup : (s.stack.map Prod.fst).Nodup
  /-- The nodes on the way read each other. -/
  way : Way g s.colours none s.stack
  /-- Black nodes read black nodes only. -/
  black : ∀ {n m}, s.colours[n]? = some .black → g.Reads n m → s.colours[m]? = some .black
  /-- No black node is on a cycle. -/
  acyclic : ∀ {n}, s.colours[n]? = some .black → ¬Relation.TransGen g.Reads n n

theorem Way.mono {colours' : Array Colour} {next : NodeRef} (h : Way g colours next rest)
    (hc : ∀ m : NodeId, colours[m]? = some .black → colours'[m]? = some .black) :
    Way g colours' next rest := by
  induction rest generalizing next with
  | nil => trivial
  | cons frame rest ih =>
    obtain ⟨⟨passed, hargs, hnext, hpassed⟩, hrest⟩ := h
    exact ⟨⟨passed, hargs, hnext, fun m hm => (hpassed m hm).imp_right (hc m)⟩, ih hrest⟩

/-- Every node on the way leads to the last one. -/
theorem Way.reaches {next : NodeRef} (h : Way g colours next ((n, args) :: rest)) :
    ∀ m ∈ ((n, args) :: rest).map Prod.fst, Relation.ReflTransGen g.Reads m n := by
  induction rest generalizing n args next with
  | nil =>
    intro m hm
    rw [List.mem_singleton.1 hm]
  | cons frame rest ih =>
    obtain ⟨l, args'⟩ := frame
    intro m hm
    rcases List.mem_cons.1 hm with rfl | hm
    · exact .refl
    · obtain ⟨-, hrest⟩ := h
      obtain ⟨⟨passed, hargs, hnext, -⟩, -⟩ := id hrest
      have hread : g.Reads l n := by
        rw [← mem_argsOf, hargs]
        exact List.mem_append_left _ (hnext n rfl)
      exact (ih hrest m hm).tail hread

/-- Everything that a black node leads to is black. -/
theorem Sound.black_of_reaches (h : s.Sound g) (hn : s.colours[n]? = some .black)
    (hm : Relation.ReflTransGen g.Reads n m) : s.colours[m]? = some .black := by
  induction hm with
  | refl => exact hn
  | tail _ hread ih => exact h.black ih hread

/-- A grey operand of the last node on the way closes a cycle. -/
theorem Sound.cycle (h : Sound g ⟨colours, (n, some m :: args) :: rest⟩)
    (hm : colours[m]? = some .grey) : Relation.TransGen g.Reads m m := by
  have hway := h.way
  obtain ⟨⟨passed, hargs, -⟩, -⟩ := id hway
  have hread : g.Reads n m := by simp [← mem_argsOf, hargs]
  exact .tail' (hway.reaches m (h.grey.1 hm)) hread

/-- Passing an operand that was searched before. -/
theorem Sound.skip (h : Sound g ⟨colours, (n, some m :: args) :: rest⟩)
    (hm : colours[m]? = some .black) : Sound g ⟨colours, (n, args) :: rest⟩ := by
  obtain ⟨⟨passed, hargs, -, hpassed⟩, hrest⟩ := h.way
  refine ⟨h.size, h.grey, h.nodup, ⟨⟨passed ++ [some m], ?_, fun _ => nofun, ?_⟩, hrest⟩, h.black,
    h.acyclic⟩
  · rw [hargs, List.append_assoc, List.singleton_append]
  · intro k hk
    rcases List.mem_append.1 hk with hk | hk
    · exact hpassed k hk
    · cases List.mem_singleton.1 hk
      exact .inr hm

/-- Going on to a node that was not looked at. -/
theorem Sound.begin (h : Sound g s) (hn : s.colours[n]? = some .white)
    (stack : List (NodeId × List NodeRef)) (hfst : stack.map Prod.fst = s.stack.map Prod.fst)
    (hway : Way g s.colours (some n) stack) :
    Sound g ((⟨s.colours, stack⟩ : Search).enter g n) := by
  have hlt : n < s.colours.size := (Array.getElem?_eq_some_iff.1 hn).1
  have hcolour (m : NodeId) : (s.colours.setIfInBounds n .grey)[m]? =
      if m = n then some .grey else s.colours[m]? := by
    grind
  have hblack (m : NodeId) :
      (s.colours.setIfInBounds n .grey)[m]? = some .black ↔ s.colours[m]? = some .black := by
    rw [hcolour]
    split
    · next hmn => simp [hmn, hn]
    · rfl
  have hnot : n ∉ stack.map Prod.fst := by
    rw [hfst, ← h.grey, hn]
    exact nofun
  rw [enter_eq]
  refine ⟨by simpa using h.size, fun {m} => ?_, List.nodup_cons.2 ⟨hnot, hfst ▸ h.nodup⟩,
    ⟨⟨[], rfl, fun _ => nofun, by simp⟩, hway.mono fun m => (hblack m).2⟩, fun {m k} hm hk => ?_,
    fun hm => h.acyclic ((hblack _).1 hm)⟩
  · rw [hcolour, List.map_cons, List.mem_cons, hfst, ← h.grey]
    split
    · next hmn => simp [hmn]
    · next hmn => simp [hmn]
  · rw [hblack] at hm ⊢
    exact h.black hm hk

/-- Leaving a node all of whose operands were searched. -/
theorem Sound.leave (h : Sound g ⟨colours, (n, []) :: rest⟩) :
    Sound g ⟨colours.setIfInBounds n .black, rest⟩ := by
  have hgrey : colours[n]? = some .grey := h.grey.2 List.mem_cons_self
  have hlt : n < colours.size := (Array.getElem?_eq_some_iff.1 hgrey).1
  obtain ⟨hnot, hnodup⟩ := List.nodup_cons.1 h.nodup
  obtain ⟨⟨passed, hargs, -, hpassed⟩, hrest⟩ := h.way
  have hread {m : NodeId} (hm : g.Reads n m) : colours[m]? = some .black := by
    rw [← mem_argsOf, hargs, List.append_nil] at hm
    exact (hpassed m hm).resolve_left nofun
  -- A cycle through the node would go on from a black node, and would not come back to a grey one.
  have hacyclic : ¬Relation.TransGen g.Reads n n := by
    intro hcycle
    obtain ⟨m, hm, hback⟩ := Relation.TransGen.head'_iff.1 hcycle
    cases hgrey.symm.trans (h.black_of_reaches (hread hm) hback)
  have hcolour (m : NodeId) : (colours.setIfInBounds n .black)[m]? =
      if m = n then some .black else colours[m]? := by
    grind
  have hkeep (m : NodeId) (hm : colours[m]? = some .black) :
      (colours.setIfInBounds n .black)[m]? = some .black := by
    rw [hcolour, hm, ite_self]
  -- What was passed before and is not black yet is the node itself.
  have hway : Way g (colours.setIfInBounds n .black) none rest := by
    cases rest with
    | nil => trivial
    | cons frame rest =>
      obtain ⟨⟨passed, hargs, -, hpassed⟩, hrest⟩ := hrest
      refine ⟨⟨passed, hargs, fun _ => nofun, fun m hm => .inr ?_⟩, hrest.mono hkeep⟩
      rcases hpassed m hm with hnext | hm
      · cases hnext
        rw [hcolour, if_pos rfl]
      · exact hkeep m hm
  refine ⟨by simpa using h.size, fun {m} => ?_, hnodup, hway, fun {m k} hm hk => ?_,
    fun {m} hm => ?_⟩
  · have hold := h.grey (n := m)
    simp only [List.map_cons, List.mem_cons] at hold
    rw [hcolour]
    split
    · next hmn =>
      subst hmn
      exact iff_of_false nofun hnot
    · next hmn => simpa [hmn] using hold
  · apply hkeep
    rw [hcolour] at hm
    split at hm
    · next hmn => exact hread (hmn ▸ hk)
    · exact h.black hm hk
  · rw [hcolour] at hm
    split at hm
    · next hmn => exact hmn ▸ hacyclic
    · exact h.acyclic hm

/-! ### Steps and runs -/

/-- A step goes on with the search, or it reports a cycle that exists. -/
theorem Sound.step (hg : g.ArgsExist) (h : s.Sound g) :
    (∃ s', s.step g = .ok s' ∧ s'.Sound g ∧ whites s'.colours ⊆ whites s.colours) ∨
    ∃ text n, s.step g = .error (.ofCause (.cycle text)) ∧ Relation.TransGen g.Reads n n := by
  obtain ⟨colours, stack⟩ := s
  match stack, h with
  | [], h => exact .inl ⟨_, rfl, h, subset_rfl⟩
  | (n, []) :: rest, h =>
    exact .inl ⟨_, rfl, h.leave, whites_set_subset _ _ nofun⟩
  | (n, arg :: args) :: rest, h =>
    obtain ⟨⟨passed, hargs, -, hpassed⟩, hrest⟩ := h.way
    obtain ⟨m, hm, rfl⟩ : ∃ m < g.nodes.size, arg = some m :=
      hg.argsOf (n := n) arg (by simp [hargs])
    rw [← h.size] at hm
    cases hcolour : colours[m]? with
    | none => exact absurd hm (Array.getElem?_eq_none_iff.1 hcolour).not_gt
    | some colour =>
      cases colour with
      | grey =>
        refine .inr ⟨"node " ++ NodeRef.text (some m), m, ?_, h.cycle hcolour⟩
        simp only [Search.step, hcolour]
      | black =>
        exact .inl ⟨_, by simp only [Search.step, hcolour], h.skip hcolour, subset_rfl⟩
      | white =>
        refine .inl ⟨_, by simp only [Search.step, hcolour],
          h.begin hcolour ((n, args) :: rest) rfl ?_, ?_⟩
        · refine ⟨⟨passed ++ [some m], by simp [hargs], ?_, ?_⟩, hrest⟩
          · rintro _ ⟨⟩
            simp
          · intro k hk
            rcases List.mem_append.1 hk with hk | hk
            · exact .inr ((hpassed k hk).resolve_left nofun)
            · cases List.mem_singleton.1 hk
              exact .inl rfl
        · rw [enter_eq]
          exact whites_set_subset _ _ nofun

theorem Sound.run (hg : g.ArgsExist) (fuel : Nat) (h : s.Sound g) :
    (∃ s', s.run g fuel = .ok s' ∧ s'.Sound g ∧ whites s'.colours ⊆ whites s.colours) ∨
    ∃ text n, s.run g fuel = .error (.ofCause (.cycle text)) ∧ Relation.TransGen g.Reads n n := by
  induction fuel generalizing s with
  | zero => exact .inl ⟨s, rfl, h, subset_rfl⟩
  | succ fuel ih =>
    rcases h.step hg with ⟨t, ht, hsound, hwhites⟩ | ⟨text, n, ht, hcycle⟩
    · rcases ih hsound with ⟨s', hs', hsound', hwhites'⟩ | ⟨text, n, hs', hcycle⟩
      · exact .inl ⟨s', Except.bind_eq_ok.2 ⟨t, ht, hs'⟩, hsound', hwhites'.trans hwhites⟩
      · exact .inr ⟨text, n, Except.bind_eq_error.2 (.inr ⟨t, ht, hs'⟩), hcycle⟩
    · exact .inr ⟨text, n, Except.bind_eq_error.2 (.inl ht), hcycle⟩

end Search

/-! ### All nodes -/

/-- Searching from one more node. -/
theorem searchFrom_cases (hg : g.ArgsExist) {colours : Array Colour}
    (h : Search.Sound g ⟨colours, []⟩) (hn : n < g.nodes.size) :
    (∃ colours', g.searchFrom colours n = .ok colours' ∧ Search.Sound g ⟨colours', []⟩ ∧
      ∀ m, (m = n ∨ colours[m]? = some .black) → colours'[m]? = some .black) ∨
    ∃ text m, g.searchFrom colours n = .error (.ofCause (.cycle text)) ∧
      Relation.TransGen g.Reads m m := by
  -- Nothing is grey between two searches, so that a node that is not white is black.
  have hblack {colours : Array Colour} (h : Search.Sound g ⟨colours, []⟩) {m : NodeId}
      (hm : m < g.nodes.size) (hnot : colours[m]? ≠ some .white) : colours[m]? = some .black := by
    have hgrey : colours[m]? ≠ some .grey := fun hgrey => by cases h.grey.1 hgrey
    have hlt : m < colours.size := h.size.symm ▸ hm
    rw [Array.getElem?_eq_getElem hlt] at hnot hgrey ⊢
    cases hcolour : colours[m] <;> simp_all
  by_cases hwhite : colours[n]? = some .white
  · have hbegin := h.begin hwhite [] rfl trivial
    rcases hbegin.run hg g.searchSteps with ⟨s, hs, hsound, hwhites⟩ | ⟨text, m, hs, hcycle⟩
    · have hend : s.stack = [] :=
        Search.stack_eq_nil_of_run ((Search.work_enter hwhite).trans_le
          (Search.work_le_searchSteps h.size rfl)) hs
      obtain ⟨colours', stack⟩ := s
      obtain rfl : stack = [] := hend
      refine .inl ⟨colours', ?_, hsound, fun m hm => ?_⟩
      · rw [searchFrom, if_pos hwhite, hs]
        rfl
      · have hlt : m < g.nodes.size := by
          rcases hm with rfl | hm
          · exact hn
          · exact h.size ▸ (Array.getElem?_eq_some_iff.1 hm).1
        refine hblack hsound hlt fun hmwhite => ?_
        have hmem := hwhites (Search.mem_whites.2 hmwhite)
        rw [Search.enter_eq, Search.whites_set (c := .grey) nofun, Finset.mem_erase,
          Search.mem_whites] at hmem
        rcases hm with rfl | hm
        · exact hmem.1 rfl
        · cases hm.symm.trans hmem.2
    · refine .inr ⟨text, m, ?_, hcycle⟩
      rw [searchFrom, if_pos hwhite, hs]
      rfl
  · refine .inl ⟨colours, by rw [searchFrom, if_neg hwhite], h, fun m hm => ?_⟩
    rcases hm with rfl | hm
    · exact hblack h hn hwhite
    · exact hm

theorem searched_cases (hg : g.ArgsExist) {k : Nat} (hk : k ≤ g.nodes.size) :
    (∃ colours, (List.range k).foldlM g.searchFrom (Array.replicate g.nodes.size Colour.white) =
        .ok colours ∧ Search.Sound g ⟨colours, []⟩ ∧ ∀ m < k, colours[m]? = some .black) ∨
    ∃ text n, (List.range k).foldlM g.searchFrom (Array.replicate g.nodes.size Colour.white) =
        .error (.ofCause (.cycle text)) ∧ Relation.TransGen g.Reads n n := by
  induction k with
  | zero =>
    have hwhite {m : NodeId} {colour : Colour} (hc : colour ≠ .white) :
        (Array.replicate g.nodes.size Colour.white)[m]? ≠ some colour := by
      intro h
      rw [Array.getElem?_replicate] at h
      split at h
      · exact hc (Option.some.inj h).symm
      · cases h
    refine .inl ⟨_, rfl, ⟨by simp, ?_, .nil, trivial, fun hm => ?_, fun hm => ?_⟩, by simp⟩
    · exact iff_of_false (hwhite (by decide)) (by simp)
    · exact absurd hm (hwhite nofun)
    · exact absurd hm (hwhite nofun)
  | succ k ih =>
    simp only [List.range_succ, List.foldlM_append, List.foldlM_cons, List.foldlM_nil, bind_pure]
    rcases ih (Nat.le_of_succ_le hk) with ⟨colours, hfold, hsound, hdone⟩ | ⟨text, n, hfold, hcycle⟩
    · rcases searchFrom_cases hg hsound hk with
        ⟨colours', hsearch, hsound', hdone'⟩ | ⟨text, n, hsearch, hcycle⟩
      · refine .inl ⟨colours', Except.bind_eq_ok.2 ⟨colours, hfold, hsearch⟩, hsound', ?_⟩
        intro m hm
        rcases Nat.lt_succ_iff_lt_or_eq.1 hm with hm | rfl
        · exact hdone' m (.inr (hdone m hm))
        · exact hdone' m (.inl rfl)
      · exact .inr ⟨text, n, Except.bind_eq_error.2 (.inr ⟨colours, hfold, hsearch⟩), hcycle⟩
    · exact .inr ⟨text, n, Except.bind_eq_error.2 (.inl hfold), hcycle⟩

/-- The search passes a graph without a cycle and reports one in any other. -/
theorem checkAcyclic_cases (hg : g.ArgsExist) :
    (g.checkAcyclic = .ok () ∧ ∀ n, ¬Relation.TransGen g.Reads n n) ∨
    ∃ text n, g.checkAcyclic = .error (.ofCause (.cycle text)) ∧ Relation.TransGen g.Reads n n := by
  rcases searched_cases hg (Nat.le_refl _) with
    ⟨colours, hfold, hsound, hdone⟩ | ⟨text, n, hfold, hcycle⟩
  · refine .inl ⟨by rw [checkAcyclic, hfold]; rfl, fun n hcycle => ?_⟩
    obtain ⟨m, ⟨node, hn, -⟩, -⟩ := Relation.TransGen.head'_iff.1 hcycle
    exact hsound.acyclic (hdone n (Array.getElem?_eq_some_iff.1 hn).1) hcycle
  · exact .inr ⟨text, n, by rw [checkAcyclic, hfold]; rfl, hcycle⟩

end Codegen.Graph
