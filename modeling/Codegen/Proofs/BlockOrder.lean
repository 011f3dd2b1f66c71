import Codegen.Proofs.Layout
import Codegen.Proofs.Reuse

/-!
# Blocks in any order

The rules read the function and the context. The one thing that a rule could change in a context is
the type of the register of its own result, and in a context that was set up for the function the
register has that type from the start. So the context stays as it is, also when a rule fails after
it has asked for the register, and no block can tell which blocks were lowered before it.

## Main definitions

* `X86.Compiler.Attempt.instrs`: the instructions that an attempt added.
* `X86.Compiler.tried`, `X86.Compiler.triedBlock`: what becomes of an instruction and of a block in
  a context.
* `X86.Compiler.blockAlone`: what becomes of a block that is lowered right after setting up.

## Main results

* `X86.maintains_select`: a rule leaves a ready context as it is, whether it succeeds or fails.
* `X86.Compiler.trial_order_irrelevant`: blocks that are lowered in any order.
-/

namespace Codegen

open Codegen.EStateM (Maintains outcome maintains_pure maintains_throw maintains_get_bind)

namespace X86

variable {src : Source} {c : Context} {i : InstrId} {ins : Codegen.Instr}
  {ty : TypeId}

/-! ### Rules leave the context -/

/-- The register of a result has the type of the result, so that there is nothing to change. -/
theorem maintains_outputReg (hcon : src.func.Coherent) (h : Context.Ready src.func c)
    (hins : src.func.instrs[i]? = some ins) (ht : ins.type = ty) :
    Maintains (· = c) (Context.outputReg src.func i ty) := by
  refine maintains_get_bind fun s hs => ?_
  subst hs ht
  cases hres : s.resultReg src.func i with
  | error e => exact maintains_throw e
  | ok r =>
    obtain ⟨rfl, hv, -⟩ := resultReg_eq_ok hcon h hins hres
    simp only [h.type_result hcon.toNaming hins hv, if_true]
    exact maintains_pure _

theorem maintains_selectPhi (hcon : src.func.Coherent) (h : Context.Ready src.func c)
    (hins : src.func.instrs[i]? = some ins) (ht : ins.type = ty)
    (incoming : List (ValueId × BlockId)) :
    Maintains (· = c) (selectPhi src i ty incoming) := by
  have hrest : Maintains (· = c) (do
      let out ← Context.outputReg src.func i ty
      let ops ← phiOperands src (← get) i incoming
      return [← Instr.make .phi (.reg out :: ops)] : Select (List Instr)) :=
    (maintains_outputReg hcon h hins ht).bind fun out => maintains_get_bind fun c' _ =>
      (maintains_lift _).bind fun ops => (maintains_liftFault _).bind fun _ => maintains_pure _
  exact .ite ((maintains_liftFault _).bind fun _ => (maintains_throw _).bind fun _ => hrest) hrest

theorem maintains_selectLoad (hcon : src.func.Coherent) (h : Context.Ready src.func c)
    (hins : src.func.instrs[i]? = some ins) (ht : ins.type = ty) (addr : ValueId) :
    Maintains (· = c) (selectLoad src i ty addr) :=
  maintains_get_bind fun _ _ => (maintains_lift _).bind fun _ => (maintains_lift _).bind fun _ =>
    (maintains_outputReg hcon h hins ht).bind fun _ => (maintains_liftFault _).bind fun _ =>
      maintains_pure _

theorem maintains_selectBinary (hcon : src.func.Coherent) (h : Context.Ready src.func c)
    (hins : src.func.instrs[i]? = some ins) (ht : ins.type = ty) (op : BinaryOp) (x y : ValueId) :
    Maintains (· = c) (selectBinary src i op ty x y) := by
  refine maintains_get_bind fun s _ => ?_
  cases binaryOpcodes op with
  | none => exact maintains_throw _
  | some ops =>
    refine (maintains_lift _).bind fun _ => (maintains_lift _).bind fun lhs =>
      (maintains_lift _).bind fun rhs => (maintains_outputReg hcon h hins ht).bind fun out =>
        (maintains_liftFault _).bind fun copy => ?_
    cases rhs <;> exact (maintains_liftFault _).bind fun _ => maintains_pure _

/-- A rule leaves a ready context as it is, whether it gives instructions or fails. -/
theorem maintains_select (hcon : src.func.Coherent) (h : Context.Ready src.func c) (i : InstrId) :
    Maintains (· = c) (select src i) := by
  refine maintains_get_bind fun c' _ => (maintains_lift _).bind_ok fun ins _ _ hins => ?_
  rw [liftStop_eq_ok, liftFault_eq_ok, Func.instr_eq_ok] at hins
  have htype {op : Operation} (hop : ins.op = some op) : ins.type = op.type := by
    simp [Codegen.Instr.type, hop]
  cases hop : ins.op with
  | none => exact maintains_throw _
  | some op =>
    cases op with
    | alloca t e n a => exact (maintains_lift _).bind fun _ => maintains_pure _
    | phi t incoming => exact maintains_selectPhi hcon h hins.1 (htype hop) incoming
    | load t addr => exact maintains_selectLoad hcon h hins.1 (htype hop) addr
    | binary op t x y => exact maintains_selectBinary hcon h hins.1 (htype hop) op x y
    | store | icmp | br | condBr | ret => exact maintains_lift _
    | sext | zext | getElementPtr | call => exact maintains_throw _

/-! ### Attempts -/

namespace Compiler

variable {s t : Compiler}

/-- The instructions that an attempt added. -/
def Attempt.instrs : Attempt → List Instr
  | .added instrs => instrs
  | .failed _ => []

/-- What becomes of an instruction in a context. -/
def tried (src : Source) (c : Context) (i : InstrId) : Except Stop Attempt :=
  match outcome (select src i) c with
  | .ok instrs => .ok (.added instrs)
  | .error (.error e) => .ok (.failed e)
  | .error (.fault f) => .error (.fault f)

/-- What becomes of a block in a context. -/
def triedBlock (src : Source) (c : Context) (b : BlockId) : Except Stop (List Attempt) := do
  let blk ← (src.func.block b : Except Stop Block)
  blk.instrs.mapM (tried src c)

/-- What becomes of a block that a new compiler lowers right after it was set up. -/
def blockAlone (src : Source) (b : BlockId) : Except Stop (List Attempt) :=
  outcome (do start src; attemptBlock src b) {}

/-- A failing instruction leaves the buffer as it was. -/
theorem emitted_of_lowerInstr_eq_error {e : Stop} (h : lowerInstr src i s = .error e t) :
    t.emitted = s.emitted := by
  unfold lowerInstr at h
  split at h
  · cases h
  · cases h
    rfl

/-- An attempt adds what the rule for the instruction gives, notes an error and stops at a fault. -/
theorem attempt_eq (src : Source) (i : InstrId) (s : Compiler) : attempt src i s =
    match select src i s.context with
    | .ok instrs c => .ok (.added instrs) { s with context := c, emitted := s.emitted ++ instrs }
    | .error (.error e) c => .ok (.failed e) { s with context := c }
    | .error (.fault f) c => .error (.fault f) { s with context := c } := by
  simp only [attempt, lowerInstr, EStateM.run]
  cases select src i s.context with
  | ok instrs c => simp
  | error e c => cases e <;> rfl

theorem outcome_attempt (src : Source) (i : InstrId) (s : Compiler) :
    outcome (attempt src i) s = tried src s.context i := by
  simp only [outcome, tried, attempt_eq]
  cases select src i s.context with
  | ok instrs c => rfl
  | error e c => cases e <;> rfl

theorem emitted_of_attempt {a : Attempt} (h : attempt src i s = .ok a t) :
    t.emitted.toList = s.emitted.toList ++ a.instrs := by
  rw [attempt_eq] at h
  cases hs : select src i s.context with
  | ok instrs c =>
    rw [hs] at h
    cases h
    simp [Attempt.instrs]
  | error e c =>
    rw [hs] at h
    cases e with
    | error err =>
      cases h
      simp [Attempt.instrs]
    | fault f => cases h

/-- The compilers that were set up for the function and have lowered some of its blocks. -/
abbrev HasContext (c : Context) (s : Compiler) : Prop := s.context = c

theorem maintains_attempt (hcon : src.func.Coherent) (h : Context.Ready src.func c) (i : InstrId) :
    Maintains (HasContext c) (attempt src i) := by
  intro s hs
  have hselect := maintains_select hcon h i s.context hs
  simp only [EStateM.after, attempt_eq] at hselect ⊢
  cases hsel : select src i s.context with
  | ok instrs c' =>
    rw [hsel] at hselect
    exact hselect
  | error e c' =>
    rw [hsel] at hselect
    cases e <;> exact hselect

theorem maintains_attemptBlock (hcon : src.func.Coherent) (h : Context.Ready src.func c)
    (b : BlockId) : Maintains (HasContext c) (attemptBlock src b) :=
  (maintains_lift _).bind fun _ => .mapM (maintains_attempt hcon h) _

theorem outcome_attemptBlock (hcon : src.func.Coherent) (h : Context.Ready src.func c)
    (b : BlockId) (hs : HasContext c s) : outcome (attemptBlock src b) s = triedBlock src c b := by
  refine EStateM.outcome_bind ?_ fun blk t ht => ?_
  · cases src.func.block b <;> rfl
  · obtain ⟨-, rfl⟩ := liftStop_eq_ok.1 ht
    refine EStateM.outcome_mapM (maintains_attempt hcon h) (fun i s hs => ?_) _ hs
    rw [outcome_attempt, hs]

theorem emitted_of_mapM_attempt {is : List InstrId} {as : List Attempt}
    (h : is.mapM (attempt src) s = .ok as t) :
    t.emitted.toList = s.emitted.toList ++ as.flatMap Attempt.instrs := by
  induction is generalizing as s with
  | nil =>
    obtain ⟨rfl, rfl⟩ := EStateM.pure_eq_ok.1 h
    simp
  | cons i is ih =>
    simp only [List.mapM_cons, EStateM.bind_eq_ok, EStateM.pure_eq_ok] at h
    obtain ⟨a, u, ha, as, _, has, rfl, rfl⟩ := h
    rw [ih has, emitted_of_attempt ha, List.append_assoc, List.flatMap_cons]

theorem emitted_of_mapM_attemptBlock {blocks : List BlockId} {r : List (List Attempt)}
    (h : blocks.mapM (attemptBlock src) s = .ok r t) :
    t.emitted.toList = s.emitted.toList ++ r.flatten.flatMap Attempt.instrs := by
  induction blocks generalizing r s with
  | nil =>
    obtain ⟨rfl, rfl⟩ := EStateM.pure_eq_ok.1 h
    simp
  | cons b blocks ih =>
    simp only [List.mapM_cons, EStateM.bind_eq_ok, EStateM.pure_eq_ok, attemptBlock,
      liftStop_eq_ok] at h
    obtain ⟨as, u, ⟨blk, _, ⟨-, rfl⟩, has⟩, r, _, hr, rfl, rfl⟩ := h
    rw [ih hr, emitted_of_mapM_attempt has, List.append_assoc, List.flatten_cons,
      List.flatMap_append]

/-- Each of the compilers that were set up for a function lowers a block as a new one. -/
theorem blockAlone_eq (hcon : src.func.Coherent) (h : start src s = .ok () t) (b : BlockId) :
    blockAlone src b = triedBlock src t.context b := by
  have hc := (ofFunc_of_start h).2
  have hnew : outcome (start src) {} = .ok () := by
    rw [outcome_start src {} s, outcome, h]
  rw [blockAlone]
  refine (EStateM.outcome_bind hnew fun _ u hu => ?_ : _ = Except.ok () >>= fun _ => _)
  have hu' : u.context = t.context := Except.ok.inj ((ofFunc_of_start hu).2.symm.trans hc)
  exact outcome_attemptBlock hcon (start_eq_ok hcon h).1 b hu'

/-- After one setting up, blocks are lowered in any order, some of them several times or never, each
as if it was the first, and the tables of the context stay as they were set up. The instructions
that were added are in the buffer, one behind the other, and nothing is left of those that
failed. -/
theorem trial_order_irrelevant (hf : src.func.Drafted) (blocks : List BlockId) (s : Compiler) :
    outcome (trial src blocks) s =
      (outcome (start src) {} >>= fun _ => blocks.mapM (blockAlone src)) ∧
    (EStateM.after (trial src blocks) s).context = (EStateM.after (start src) s).context ∧
    (∀ r t, trial src blocks s = .ok r t →
      t.emitted.toList = r.flatten.flatMap Attempt.instrs) ∧
    ∀ i t e t', lowerInstr src i t = .error e t' → t'.emitted = t.emitted := by
  have hcon := hf.coherent
  refine ⟨?_, ?_, fun r t h => ?_, fun _ _ _ _ => emitted_of_lowerInstr_eq_error⟩
  · refine EStateM.outcome_bind (outcome_start src s {}) fun _ t ht => ?_
    have hready := (start_eq_ok hcon ht).1
    refine EStateM.outcome_mapM (maintains_attemptBlock hcon hready) (fun b u hu => ?_) blocks rfl
    rw [outcome_attemptBlock hcon hready b hu, blockAlone_eq hcon ht b]
  · refine EStateM.after_bind (fun u : Compiler => u.context = _) rfl fun _ t ht hcontext => ?_
    exact (Maintains.mapM (maintains_attemptBlock hcon (start_eq_ok hcon ht).1) blocks t rfl).trans
      hcontext
  · obtain ⟨_, u, hu, hrun⟩ := EStateM.bind_eq_ok.1 h
    simpa [(start_eq_ok hcon hu).2] using emitted_of_mapM_attemptBlock hrun

/-- Whether an attempt failed. -/
def Attempt.isFailed : Attempt → Bool
  | .added _ => false
  | .failed _ => true

/-- A function with a product, for which there is no rule, before a sum. -/
def lacking : Source where
  types := Func.sampleTypes
  func := (Func.sampleStart.assemble []
    [[.binary .mul 2 1 1, .binary .add 2 1 1, .br 1], [.ret (some 3)]]).getD Func.sampleStart

theorem built_lacking : lacking.func.Built := by
  simpa only [lacking] using Func.built_assembled _ _

/-- The two blocks of a function in an order with repetitions, with an instruction that fails. -/
theorem trial_order_irrelevant_sample :
    lacking.func.Drafted ∧ ∃ r t, trial lacking [1, 0, 1, 1, 0] {} = .ok r t ∧
      r.flatten.any Attempt.isFailed = true ∧
      List.Forall₂ (fun b as => blockAlone lacking b = .ok as) [1, 0, 1, 1, 0] r ∧
      t.emitted.toList = r.flatten.flatMap Attempt.instrs ∧
      t.context = (EStateM.after (start lacking) {}).context := by
  have hgives : EStateM.gives (fun r => r.flatten.any Attempt.isFailed)
      (trial lacking [1, 0, 1, 1, 0] {}) = true := by decide +kernel
  obtain ⟨r, t, hrun, hfailed⟩ := EStateM.eq_ok_of_gives hgives
  obtain ⟨houtcome, hcontext, hemitted, -⟩ :=
    trial_order_irrelevant built_lacking.drafted [1, 0, 1, 1, 0] {}
  rw [outcome, hrun] at houtcome
  obtain ⟨_, -, hblocks⟩ := Except.bind_eq_ok.1 houtcome.symm
  rw [EStateM.after_eq_of_ok hrun] at hcontext
  exact ⟨built_lacking.drafted, r, t, hrun, hfailed, Except.mapM_eq_ok.1 hblocks,
    hemitted r t hrun, hcontext⟩

end Compiler

end X86

end Codegen
