import Codegen.Proofs.Construction
import Mathlib.Data.List.Induction

/-!
# What the history of a function shows

A function is built by a sequence of steps, and most of its tables say the same thing more than
once: the layout of the blocks and the order of the instructions can be read forward and backward,
an instruction names its block and the block lists the instruction, and an edge is recorded at both
of its ends. Whatever the steps are, the tables of the function can be computed from the sequence:
the blocks are laid out as they were added, each block lists the instructions in the order of their
insertion, and the edges are those of the branches, in the order in which they were first met.

## Main definitions

* `Func.Follows`: the list that is read by going from each element to the next.
* `Func.Step`, `Func.Step.perform`, `Func.performAll`: the steps that build a function.
* `Func.Admits`, `Func.AdmitsAll`: the steps that name existing blocks and instructions.
* `Func.Reflects`: the tables of a function, in terms of the steps that built it.

## Main results

* `Func.after_eq_some_iff`: the successor and the predecessor in a list are inverse to each other.
* `Func.Traced.insert`: what an insertion adds to the tables.
* `Func.performAll_reflects`: a function that is built by a sequence of steps reflects the sequence.
-/

namespace Codegen

namespace Func

/-! ### Neighbours in a list -/

/-- The list that is read from an element on by going to the next one. -/
def Follows (next : Nat → Option Nat) : Option Nat → List Nat → Prop
  | r, [] => r = none
  | r, x :: l => r = some x ∧ Follows next (next x) l

theorem Follows.congr {next next' : Nat → Option Nat} {r : Option Nat} {l : List Nat}
    (h : Follows next r l) (hnext : ∀ x ∈ l, next' x = next x) : Follows next' r l := by
  induction l generalizing r with
  | nil => exact h
  | cons x l ih =>
    obtain ⟨hx, hl⟩ := List.forall_mem_cons.1 hnext
    exact ⟨h.1, hx ▸ ih h.2 hl⟩

section Neighbours

variable {x y : Nat} {l r : List Nat}

theorem after_cons (x a : Nat) (l : List Nat) :
    after x (a :: l) = if a = x then l.head? else after x l := by
  cases l <;> simp [after]

theorem after_append (h : x ∉ l) (r : List Nat) : after x (l ++ x :: r) = r.head? := by
  induction l with
  | nil => simp [after_cons]
  | cons a l ih =>
    obtain ⟨hne, hl⟩ := not_or.1 (mt List.mem_cons.2 h)
    rw [List.cons_append, after_cons, if_neg (Ne.symm hne), ih hl]

theorem before_cons_of_notMem (h : x ∉ l) (a : Nat) : before x (a :: l) = none := by
  induction l generalizing a with
  | nil => rfl
  | cons b l ih =>
    obtain ⟨hne, hl⟩ := not_or.1 (mt List.mem_cons.2 h)
    rw [before, if_neg (Ne.symm hne), ih hl]

theorem before_append (hl : x ∉ l) (hr : x ∉ r) : before x (l ++ x :: r) = l.getLast? := by
  induction l with
  | nil => exact before_cons_of_notMem hr x
  | cons a l ih =>
    obtain ⟨-, hl⟩ := not_or.1 (mt List.mem_cons.2 hl)
    cases l with
    | nil => simp [before]
    | cons b l =>
      have hne : b ≠ x := fun h => hl (h ▸ List.mem_cons_self)
      rw [List.cons_append, List.cons_append, before, if_neg hne, ← List.cons_append, ih hl]
      rfl

theorem eq_append_of_after (h : after x l = some y) : ∃ p q, l = p ++ x :: y :: q := by
  induction l with
  | nil => cases h
  | cons a l ih =>
    rw [after_cons] at h
    split at h
    · next ha =>
      obtain ⟨q, rfl⟩ := List.head?_eq_some_iff.1 h
      exact ⟨[], q, by rw [ha]; rfl⟩
    · obtain ⟨p, q, rfl⟩ := ih h
      exact ⟨a :: p, q, rfl⟩

theorem eq_append_of_before (h : before y l = some x) : ∃ p q, l = p ++ x :: y :: q := by
  induction l with
  | nil => cases h
  | cons a l ih =>
    cases l with
    | nil => cases h
    | cons b l =>
      rw [before] at h
      split at h
      · next hb =>
        cases h
        exact ⟨[], l, by rw [hb]; rfl⟩
      · obtain ⟨p, q, hpq⟩ := ih h
        exact ⟨a :: p, q, by rw [hpq]; rfl⟩

/-- One element comes after another if and only if the other comes before it. -/
theorem after_eq_some_iff (hl : l.Nodup) : after x l = some y ↔ before y l = some x := by
  constructor
  · intro h
    obtain ⟨p, q, rfl⟩ := eq_append_of_after h
    have hy : y ∉ p ++ [x] ∧ y ∉ q := by grind
    have hbefore := before_append hy.1 hy.2
    simpa using hbefore
  · intro h
    obtain ⟨p, q, rfl⟩ := eq_append_of_before h
    have hx : x ∉ p := by grind
    rw [after_append hx]
    rfl

/-- A list without repetitions is read forward. -/
theorem follows_after (hl : l.Nodup) : Follows (after · l) l.head? l := by
  have hsuffix (p : List Nat) (h : (p ++ l).Nodup) : Follows (after · (p ++ l)) l.head? l := by
    clear hl
    induction l generalizing p with
    | nil => rfl
    | cons x l ih =>
      have hx : x ∉ p := by grind
      refine ⟨rfl, ?_⟩
      change Follows _ (after x (p ++ x :: l)) l
      rw [after_append hx]
      simpa using ih (p ++ [x]) (by simpa using h)
  exact hsuffix [] hl

/-- A list without repetitions is read backward. -/
theorem follows_before (hl : l.Nodup) : Follows (before · l) l.getLast? l.reverse := by
  have hinit (q : List Nat) (h : (l ++ q).Nodup) :
      Follows (before · (l ++ q)) l.getLast? l.reverse := by
    clear hl
    induction l using List.reverseRecOn generalizing q with
    | nil => rfl
    | append_singleton l x ih =>
      have hx : x ∉ l ∧ x ∉ q := by grind
      rw [List.reverse_append, List.append_assoc]
      refine ⟨by simp, ?_⟩
      change Follows _ (before x (l ++ x :: q)) l.reverse
      rw [before_append hx.1 hx.2]
      exact ih (x :: q) (by simpa using h)
  simpa using hinit [] (by simpa using hl)

end Neighbours

/-! ### Steps -/

/-- A step that builds a function. -/
inductive Step where
  /-- Adds a block. -/
  | block (name : String)
  /-- Adds a blank instruction. -/
  | instr
  /-- Adds a constant. -/
  | const (payload : Int64) (type : TypeId)
  /-- Gives an instruction its operation. -/
  | operation (i : InstrId) (op : Operation)
  /-- Inserts an instruction at the end of a block. -/
  | insert (b : BlockId) (i : InstrId)

/-- Takes a step. -/
def Step.perform (f : Func) : Step → Except Fault Func
  | block name => .ok (f.addBlock name).2
  | instr => .ok f.addInstr.2
  | const payload type => .ok (f.addValue (.const payload type)).2
  | operation i op => f.setOperation i op
  | insert b i =>
    match (Func.insert b i).run f with
    | .ok _ f => .ok f
    | .error e _ => .error e

/-- Takes steps one after the other. -/
def performAll (f : Func) (steps : List Step) : Except Fault Func := steps.foldlM Step.perform f

/-- The names of the blocks that are added, in order. -/
def blockNames (steps : List Step) : List String :=
  steps.filterMap fun
    | .block name => some name
    | _ => none

/-- The insertions in order, each with the block and the instruction. -/
def insertions (steps : List Step) : List (BlockId × InstrId) :=
  steps.filterMap fun
    | .insert b i => some (b, i)
    | _ => none

variable {f g : Func} {b c s : BlockId} {i j : InstrId} {op : Operation} {steps : List Step}

/-- The blocks to which the instruction with a number leads. -/
def successorsOf (f : Func) (i : InstrId) : List BlockId := ((f.opOf i).map (·.successors)).getD []

/-- The steps that are taken with blocks and instructions of the function: an instruction gets an
operation before it is inserted, and it is inserted after it got one, into a block of the function
and with branches to such blocks. -/
def Admits (f : Func) : Step → Prop
  | .operation i _ => i < f.instrs.size ∧ f.blockOf i = none
  | .insert b i => b < f.blocks.size ∧ (f.opOf i).isSome ∧
    ∀ s ∈ f.successorsOf i, s < f.blocks.size
  | _ => True

instance (f : Func) (step : Step) : Decidable (f.Admits step) :=
  match step with
  | .operation _ _ => inferInstanceAs (Decidable (_ ∧ _))
  | .insert _ _ => inferInstanceAs (Decidable (_ ∧ _ ∧ _))
  | .block _ => isTrue trivial
  | .instr => isTrue trivial
  | .const _ _ => isTrue trivial

/-- Each of the steps is admitted by the function that it is taken with. -/
def AdmitsAll : Func → List Step → Prop
  | _, [] => True
  | f, step :: steps => f.Admits step ∧
    match step.perform f with
    | .ok f => f.AdmitsAll steps
    | .error _ => True

instance decidableAdmitsAll : (f : Func) → (steps : List Step) → Decidable (f.AdmitsAll steps)
  | _, [] => isTrue trivial
  | f, step :: steps =>
    match hstep : step.perform f with
    | .ok g =>
      have := decidableAdmitsAll g steps
      decidable_of_iff (f.Admits step ∧ g.AdmitsAll steps) (by rw [AdmitsAll, hstep])
    | .error _ => decidable_of_iff (f.Admits step) (by rw [AdmitsAll, hstep, and_true])

/-! ### Recording edges -/

theorem addOnce_addOnce (x : Nat) (xs : List Nat) :
    addOnce x (addOnce x xs) = addOnce x xs := by
  rw [addOnce, if_pos (mem_addOnce.2 (.inr rfl))]

theorem eraseDups_concat (l : List Nat) (x : Nat) :
    (l ++ [x]).eraseDups = addOnce x l.eraseDups := by
  rw [List.eraseDups_append, addOnce]
  by_cases h : x ∈ l <;> simp [List.removeAll, h, List.eraseDups_cons]

/-- First occurrences are collected one after the other. -/
theorem eraseDups_append_eq_foldl (l r : List Nat) :
    (l ++ r).eraseDups = r.foldl (fun xs x => addOnce x xs) l.eraseDups := by
  induction r generalizing l with
  | nil => simp
  | cons x r ih =>
    rw [List.foldl_cons, ← eraseDups_concat, ← ih]
    simp

/-- The function with all edges from a block to others. -/
def connectAll (f : Func) (b : BlockId) (targets : List BlockId) : Func :=
  targets.foldl (fun f s => f.connect b s) f

section ConnectAll

variable {targets : List BlockId}

theorem instrs_connectAll : (f.connectAll b targets).instrs = f.instrs := by
  induction targets generalizing f with
  | nil => rfl
  | cons s targets ih => exact ih.trans instrs_connect

theorem instrsOf_connectAll : (f.connectAll b targets).instrsOf c = f.instrsOf c := by
  induction targets generalizing f with
  | nil => rfl
  | cons s targets ih => exact ih.trans instrsOf_connect

theorem succsOf_connectAll (hb : b < f.blocks.size) :
    (f.connectAll b targets).succsOf c =
      if c = b then targets.foldl (fun xs s => addOnce s xs) (f.succsOf b) else f.succsOf c := by
  induction targets generalizing f with
  | nil => by_cases hc : c = b <;> simp [connectAll, hc]
  | cons s targets ih =>
    change ((f.connect b s).connectAll b targets).succsOf c = _
    rw [ih (by rwa [size_connect]), succsOf_connect hb, succsOf_connect hb]
    by_cases hc : c = b <;> simp [hc]

/-- A target gets the block as a predecessor, however often it is one. -/
theorem predsOf_connectAll (htargets : ∀ s ∈ targets, s < f.blocks.size) :
    (f.connectAll b targets).predsOf c =
      if c ∈ targets then addOnce b (f.predsOf c) else f.predsOf c := by
  induction targets generalizing f with
  | nil => rfl
  | cons s targets ih =>
    obtain ⟨hs, htargets⟩ := List.forall_mem_cons.1 htargets
    change ((f.connect b s).connectAll b targets).predsOf c = _
    rw [ih (by simpa using htargets), predsOf_connect hs]
    by_cases hc : c = s
    · subst hc
      by_cases hmem : c ∈ targets <;> simp [hmem, addOnce_addOnce]
    · simp [hc]

/-- Edges to existing blocks are recorded. -/
theorem forM_link (htargets : ∀ s ∈ targets, s < f.blocks.size) :
    targets.forM (link b) f = .ok () (f.connectAll b targets) := by
  induction targets generalizing f with
  | nil => rfl
  | cons s targets ih =>
    obtain ⟨hs, htargets⟩ := List.forall_mem_cons.1 htargets
    have hlink : link b s f = .ok () (f.connect b s) := by
      simp only [link, EStateM.bind_eq_ok, EStateM.modify_eq_ok, EStateM.get_eq_ok]
      exact ⟨(), _, rfl, _, _, ⟨rfl, rfl⟩, by simp [hs, EStateM.set_eq_ok, connect]⟩
    exact EStateM.bind_eq_ok.2 ⟨(), _, hlink, ih (by simpa using htargets)⟩

end ConnectAll

/-- An insertion that is admitted puts the instruction at the end of the block and records its
edges, unless the instruction was inserted before. -/
theorem run_insert (h : f.Admits (.insert b i)) :
    (f.blockOf i = none ∧
        (insert b i).run f = .ok () ((f.attach b i).connectAll b (f.successorsOf i))) ∨
      (∃ c, f.blockOf i = some c) ∧ (insert b i).run f = .error (.insertTwice i) f := by
  obtain ⟨hb, hop, htargets⟩ := h
  obtain ⟨op, hop⟩ := Option.isSome_iff_exists.1 hop
  obtain ⟨ins, hins, hinsop⟩ := Option.bind_eq_some_iff.1 hop
  have hblock : f.block b = .ok f.blocks[b] := by simp [block, hb]
  have hinstr : f.instr i = .ok ins := by simp [instr, hins]
  have hsuccessors : f.successorsOf i = op.successors := by simp [successorsOf, hop]
  have hblockOf : f.blockOf i = ins.block := by simp [blockOf, hins]
  rw [hsuccessors] at htargets ⊢
  cases hplace : ins.block with
  | none =>
    refine .inl ⟨hblockOf.trans hplace, ?_⟩
    simp only [insert, EStateM.run, EStateM.bind_eq_ok, EStateM.get_eq_ok]
    refine ⟨f, f, ⟨rfl, rfl⟩, ?_⟩
    simp only [hblock, hinstr, hinsop, hplace, Option.isSome_none, Bool.false_eq_true, if_false]
    refine EStateM.bind_eq_ok.2 ⟨(), f.attach b i, EStateM.set_eq_ok.2 rfl, forM_link ?_⟩
    simpa [attach] using htargets
  | some c =>
    refine .inr ⟨⟨c, hblockOf.trans hplace⟩, ?_⟩
    simp only [insert, EStateM.run, EStateM.bind_eq_error, EStateM.get_eq_ok]
    refine .inr ⟨f, f, ⟨rfl, rfl⟩, ?_⟩
    simp only [hblock, hinstr, hinsop, hplace, Option.isSome_some, if_true]
    exact EStateM.bind_eq_error.2 (.inl (EStateM.throw_eq_error.2 ⟨rfl, rfl⟩))

/-! ### What each step adds -/

/-- The names of the blocks in layout order. -/
def names (f : Func) : List String := f.blocks.toList.map (·.name)

theorem names_updateBlock (change : Block → Block) (h : ∀ blk, (change blk).name = blk.name) :
    (f.updateBlock b change).names = f.names := by
  refine List.ext_getElem? fun n => ?_
  simp only [names, List.getElem?_map, Array.getElem?_toList, getElem?_blocks_updateBlock]
  by_cases hn : n = b
  · subst hn
    cases f.blocks[n]? <;> simp [h]
  · rw [if_neg hn]

theorem names_connectAll {targets : List BlockId} : (f.connectAll b targets).names = f.names := by
  induction targets generalizing f with
  | nil => rfl
  | cons s targets ih =>
    have hconnect : (f.connect b s).names = f.names := by
      rw [connect, names_updateBlock, names_updateBlock] <;> exact fun _ => rfl
    exact ih.trans hconnect

theorem names_attach : (f.attach b i).names = f.names := by
  rw [attach, names_updateBlock]
  · rw [names, blocks_updateInstr, names]
  · exact fun _ => rfl

/-- The tables of a function that was built by steps, as the steps leave them. -/
structure Traced (f : Func) (steps : List Step) : Prop where
  built : f.Built
  names : f.names = blockNames steps
  instrs : ∀ b, f.instrsOf b = ((insertions steps).filter (·.1 = b)).map (·.2)
  succs : ∀ b, f.succsOf b = ((f.instrsOf b).flatMap f.successorsOf).eraseDups
  preds : ∀ s, f.predsOf s =
    (((insertions steps).filter (s ∈ f.successorsOf ·.2)).map (·.1)).eraseDups

theorem Traced.mem_insertions (h : f.Traced steps) :
    (b, i) ∈ insertions steps ↔ f.blockOf i = some b := by
  rw [← h.built.consistent.mem_instrsOf, h.instrs]
  simp

/-- A step that inserts nothing leaves the tables as they are. -/
theorem Traced.congr {steps' : List Step} (h : f.Traced steps) (hbuilt : g.Built)
    (hnames : g.names = blockNames steps') (hlog : insertions steps' = insertions steps)
    (hinstrs : ∀ b, g.instrsOf b = f.instrsOf b) (hsuccs : ∀ b, g.succsOf b = f.succsOf b)
    (hpreds : ∀ b, g.predsOf b = f.predsOf b)
    (hops : ∀ b i, f.blockOf i = some b → g.opOf i = f.opOf i) : g.Traced steps' := by
  have hsuccessors {b : BlockId} {i : InstrId} (hi : f.blockOf i = some b) :
      g.successorsOf i = f.successorsOf i := by rw [successorsOf, hops b i hi, successorsOf]
  refine ⟨hbuilt, hnames, fun b => ?_, fun b => ?_, fun s => ?_⟩
  · rw [hinstrs, h.instrs, hlog]
  · rw [hsuccs, h.succs, hinstrs]
    congr 1
    refine (List.flatMap_congr fun i hi => ?_).symm
    exact hsuccessors (h.built.consistent.mem_instrsOf.1 hi)
  · rw [hpreds, h.preds, hlog]
    congr 2
    refine List.filter_congr fun e he => ?_
    rw [hsuccessors (h.mem_insertions.1 he)]

theorem Traced.block (h : f.Traced steps) (name : String) :
    (f.addBlock name).2.Traced (steps ++ [.block name]) := by
  refine h.congr (h.built.addBlock name) ?_ (by simp [insertions]) (fun _ => instrsOf_addBlock name)
    (fun _ => succsOf_addBlock name) (fun _ => predsOf_addBlock name) fun _ _ _ => rfl
  have hnames := h.names
  simp only [Func.names, blockNames] at hnames ⊢
  simp [addBlock, hnames]

theorem Traced.instr (h : f.Traced steps) : f.addInstr.2.Traced (steps ++ [.instr]) :=
  h.congr h.built.addInstr (h.names.trans (by simp [blockNames])) (by simp [insertions])
    (fun _ => rfl) (fun _ => rfl) (fun _ => rfl) fun _ _ _ => opOf_addInstr

theorem Traced.const (h : f.Traced steps) (payload : Int64) (type : TypeId) :
    (f.addValue (.const payload type)).2.Traced (steps ++ [.const payload type]) :=
  h.congr (h.built.addConst payload type) (h.names.trans (by simp [blockNames]))
    (by simp [insertions]) (fun _ => rfl) (fun _ => rfl) (fun _ => rfl) fun _ _ _ => rfl

theorem Traced.operation (h : f.Traced steps) (hi : f.blockOf i = none)
    (hg : f.setOperation i op = .ok g) : g.Traced (steps ++ [.operation i op]) := by
  have hbuilt : g.Built := h.built.setOperation hi hg
  obtain ⟨-, rfl⟩ := setOperation_eq_ok hg
  refine h.congr hbuilt ?_ (by simp [insertions]) (fun _ => instrsOf_updateInstr _)
    (fun _ => by simp [succsOf]) (fun _ => by simp [predsOf]) fun b j hj => ?_
  · simpa [Func.names, blockNames] using h.names
  · rw [opOf_updateInstr, if_neg]
    rintro rfl
    cases hi.symm.trans hj

/-- An insertion adds the instruction to its block, its targets to the successors of the block, and
the block to the predecessors of its targets. -/
theorem Traced.insert (h : f.Traced steps) (hadmits : f.Admits (.insert b i))
    (hg : (Func.insert b i).run f = .ok () g) : g.Traced (steps ++ [.insert b i]) := by
  have hbuilt : g.Built := h.built.insert hg
  obtain rfl : g = (f.attach b i).connectAll b (f.successorsOf i) := by
    rcases run_insert hadmits with ⟨-, hok⟩ | ⟨-, hstop⟩
    · cases hg.symm.trans hok
      rfl
    · cases hg.symm.trans hstop
  obtain ⟨hb, -, htargets⟩ := hadmits
  have hsize : (f.attach b i).blocks.size = f.blocks.size := by simp [attach]
  have hsuccessors (j : InstrId) :
      ((f.attach b i).connectAll b (f.successorsOf i)).successorsOf j = f.successorsOf j := by
    simp only [successorsOf, opOf, instrs_connectAll]
    exact congrArg (fun op : Option Operation => (op.map (·.successors)).getD []) opOf_attach
  have hlog : insertions (steps ++ [.insert b i]) = insertions steps ++ [(b, i)] := by
    simp [insertions]
  have hinstrs (c : BlockId) : ((f.attach b i).connectAll b (f.successorsOf i)).instrsOf c =
      if c = b then f.instrsOf b ++ [i] else f.instrsOf c := by
    rw [instrsOf_connectAll, instrsOf_attach hb]
  refine ⟨hbuilt, ?_, fun c => ?_, fun c => ?_, fun s => ?_⟩
  · rw [names_connectAll, names_attach, h.names]
    simp [blockNames]
  · rw [hinstrs, hlog]
    by_cases hc : c = b
    · simp [hc, h.instrs]
    · simp [hc, h.instrs, Ne.symm hc]
  · rw [hinstrs, succsOf_connectAll (hsize ▸ hb), succsOf_attach, succsOf_attach, h.succs, h.succs,
      funext hsuccessors]
    by_cases hc : c = b
    · rw [if_pos hc, if_pos hc, List.flatMap_append, eraseDups_append_eq_foldl]
      simp
    · rw [if_neg hc, if_neg hc]
  · rw [predsOf_connectAll (hsize ▸ htargets), predsOf_attach, h.preds, hlog, List.filter_append,
      List.map_append]
    simp only [hsuccessors]
    by_cases hs : s ∈ f.successorsOf i
    · simp [hs, eraseDups_concat]
    · simp [hs]

theorem Traced.new {m m' : Module} {name : String} {sig : TypeId}
    (h : m.addFunc name sig = .ok (f, m')) : f.Traced [] := by
  obtain ⟨hblocks, -⟩ := new_blocks h
  refine ⟨.new h, ?_, fun b => ?_, fun b => ?_, fun s => ?_⟩
  · simp [Func.names, blockNames, hblocks]
  · simp [instrsOf, insertions, hblocks]
  · simp [succsOf, instrsOf, hblocks]
  · simp [predsOf, insertions, hblocks]

/-- A step that is admitted is taken, unless it inserts an instruction again. -/
theorem Traced.perform (h : f.Traced steps) {step : Step} (hadmits : f.Admits step) :
    (∃ g, step.perform f = .ok g ∧ g.Traced (steps ++ [step])) ∨
      ∃ b c i, step = .insert b i ∧ (c, i) ∈ insertions steps ∧
        step.perform f = .error (.insertTwice i) := by
  cases step with
  | block name => exact .inl ⟨_, rfl, h.block name⟩
  | instr => exact .inl ⟨_, rfl, h.instr⟩
  | const payload type => exact .inl ⟨_, rfl, h.const payload type⟩
  | operation i op =>
    obtain ⟨hi, hblank⟩ := hadmits
    have hg : f.setOperation i op = .ok (f.updateInstr i ({ · with op := some op })) := by
      simp [setOperation, Func.instr, hi, bind, Except.bind, pure, Except.pure]
    exact .inl ⟨_, hg, h.operation hblank hg⟩
  | insert b i =>
    rcases run_insert hadmits with ⟨-, hrun⟩ | ⟨⟨c, hc⟩, hrun⟩
    · exact .inl ⟨_, by rw [Step.perform, hrun], h.insert hadmits hrun⟩
    · exact .inr ⟨b, c, i, rfl, h.mem_insertions.2 hc, by rw [Step.perform, hrun]⟩

/-! ### Whole histories -/

theorem insertions_append (steps steps' : List Step) :
    insertions (steps ++ steps') = insertions steps ++ insertions steps' := List.filterMap_append

/-- Steps that are admitted are taken one after the other, unless an instruction is inserted
again. -/
theorem Traced.performAll {later : List Step} (h : f.Traced steps) (hlater : f.AdmitsAll later) :
    (∃ g, f.performAll later = .ok g ∧ g.Traced (steps ++ later)) ∨
      ∃ i, f.performAll later = .error (.insertTwice i) ∧
        1 < ((insertions (steps ++ later)).map (·.2)).count i := by
  induction later generalizing f steps with
  | nil => exact .inl ⟨f, rfl, by simpa using h⟩
  | cons step later ih =>
    obtain ⟨hadmits, hlater⟩ := hlater
    rcases h.perform hadmits with ⟨g, hg, htraced⟩ | ⟨b, c, i, rfl, hmem, hstop⟩
    · rw [hg] at hlater
      have hsteps : f.performAll (step :: later) = g.performAll later := by
        rw [Func.performAll, List.foldlM_cons, hg]
        rfl
      rw [hsteps, List.append_cons]
      exact ih htraced hlater
    · refine .inr ⟨i, ?_, ?_⟩
      · rw [Func.performAll, List.foldlM_cons, hstop]
        rfl
      · have hbefore : 0 < ((insertions steps).map (·.2)).count i :=
          List.count_pos_iff.2 (List.mem_map_of_mem hmem)
        have hagain : insertions (.insert b i :: later) = (b, i) :: insertions later := rfl
        rw [insertions_append, hagain, List.map_append, List.count_append, List.map_cons,
          List.count_cons_self]
        omega

end Func

/-- The operation is a branch that can go to a block. -/
def Operation.BranchesTo (op : Operation) (s : BlockId) : Prop :=
  op = .br s ∨ ∃ v c, op = .condBr v s c ∨ op = .condBr v c s

theorem Operation.mem_successors {op : Operation} {s : BlockId} :
    s ∈ op.successors ↔ op.BranchesTo s := by
  cases op with
  | br b => simp [successors, BranchesTo, eq_comm]
  | condBr v b c => grind [successors, BranchesTo]
  | _ => simp [successors, BranchesTo]

namespace Func

variable {f : Func} {b : BlockId} {i : InstrId} {steps : List Step}

/-- The tables of a function in terms of the steps that built it. -/
structure Reflects (f : Func) (steps : List Step) : Prop where
  /-- The blocks are laid out in the order in which they were added. -/
  layout : f.names = blockNames steps
  /-- The layout is read forward. -/
  nextBlocks : Follows f.nextBlock f.blockIds.head? f.blockIds
  /-- The layout is read backward. -/
  prevBlocks : Follows f.prevBlock f.blockIds.getLast? f.blockIds.reverse
  /-- The next and the previous block are inverse to each other. -/
  nextBlock_iff : ∀ b c, f.nextBlock b = some c ↔ f.prevBlock c = some b
  /-- A block lists the instructions that were inserted into it, in this order. -/
  instrs : ∀ b, f.instrsOf b = ((insertions steps).filter (·.1 = b)).map (·.2)
  /-- The instructions of a block are read forward from the first one. -/
  nextInstrs : ∀ b, Follows f.nextInstr (f.instrsOf b).head? (f.instrsOf b)
  /-- The instructions of a block are read backward from the last one. -/
  prevInstrs : ∀ b, Follows f.prevInstr (f.instrsOf b).getLast? (f.instrsOf b).reverse
  /-- An instruction names the block into which it was inserted. -/
  blockOf_iff : ∀ i b, f.blockOf i = some b ↔ (b, i) ∈ insertions steps
  /-- An instruction is listed once in the block that it names and nowhere else. -/
  count_instrs : ∀ i b, (f.instrsOf b).count i = if f.blockOf i = some b then 1 else 0
  /-- The successors of a block are the targets of its branches. -/
  mem_succs : ∀ b s, s ∈ f.succsOf b ↔
    ∃ i op, f.blockOf i = some b ∧ f.opOf i = some op ∧ op.BranchesTo s
  /-- An edge is recorded at both ends. -/
  mem_preds : ∀ b s, b ∈ f.predsOf s ↔ s ∈ f.succsOf b
  nodup_succs : ∀ b, (f.succsOf b).Nodup
  nodup_preds : ∀ s, (f.predsOf s).Nodup
  /-- The successors of a block are in the order in which its branches name them first. -/
  succs : ∀ b, f.succsOf b = ((f.instrsOf b).flatMap f.successorsOf).eraseDups
  /-- The predecessors of a block are in the order in which branches to it were inserted first. -/
  preds : ∀ s, f.predsOf s =
    (((insertions steps).filter (s ∈ f.successorsOf ·.2)).map (·.1)).eraseDups

theorem siblings_eq (h : f.blockOf i = some b) : f.siblings i = f.instrsOf b := by
  obtain ⟨ins, hins, hblock⟩ := Option.bind_eq_some_iff.1 h
  simp only [siblings, hins, hblock, instrsOf]
  cases f.blocks[b]? <;> rfl

theorem Traced.reflects (h : f.Traced steps) : f.Reflects steps := by
  have hcon := h.built.consistent
  have hids : f.blockIds.Nodup := List.nodup_range
  have hsiblings {b : BlockId} : ∀ i ∈ f.instrsOf b, f.siblings i = f.instrsOf b :=
    fun i hi => siblings_eq (hcon.mem_instrsOf.1 hi)
  refine
    { layout := h.names
      nextBlocks := follows_after hids
      prevBlocks := follows_before hids
      nextBlock_iff := fun b c => after_eq_some_iff hids
      instrs := h.instrs
      nextInstrs := fun b => ?_
      prevInstrs := fun b => ?_
      blockOf_iff := fun i b => h.mem_insertions.symm
      count_instrs := fun i b => ?_
      mem_succs := fun b s => ?_
      mem_preds := fun b s => hcon.edges.mem_predsOf
      nodup_succs := hcon.edges.nodup_succsOf
      nodup_preds := hcon.edges.nodup_predsOf
      succs := h.succs
      preds := h.preds }
  · refine (follows_after (hcon.nodup_instrsOf b)).congr fun i hi => ?_
    rw [nextInstr, hsiblings i hi]
  · refine (follows_before (hcon.nodup_instrsOf b)).congr fun i hi => ?_
    rw [prevInstr, hsiblings i (List.mem_reverse.1 hi)]
  · rw [(hcon.nodup_instrsOf b).count]
    simp only [hcon.mem_instrsOf]
  · simp only [hcon.mem_succsOf, Branches, hcon.mem_instrsOf, Operation.mem_successors]
    constructor
    · rintro ⟨i, hi, op, hop, hs⟩
      exact ⟨i, op, hi, hop, hs⟩
    · rintro ⟨i, op, hi, hop, hs⟩
      exact ⟨i, hi, op, hop, hs⟩

/-- Steps for a loop that is entered from two blocks. Its branch is inserted before the others, and
it gets its operation a second time. -/
def sampleSteps : List Step :=
  [.block "entry", .instr, .block "loop", .block "exit", .instr, .const 1 2, .instr,
    .operation 1 (.br 2), .operation 1 (.condBr 1 1 2), .insert 1 1, .operation 2 (.ret (some 1)),
    .operation 0 (.condBr 1 1 1), .insert 0 0, .insert 2 2]

end Func

end Codegen
