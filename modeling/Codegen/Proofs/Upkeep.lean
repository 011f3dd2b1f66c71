import Codegen.Proofs.Growth

/-!
# What a builder keeps while it works

A property of a builder that says nothing about its graph stays true while nodes are made, put on a
chain and collected in blocks. What is left to show of such a property is that it stays true when
the conversion of an instruction begins and when it ends, and then it stays true whatever the
builder does, also if it stops in the middle.

## Main definitions

* `Builder.Graphless`: a property that says nothing about the graph.
* `Builder.Lasting`: a property that beginning and ending a conversion keep.

## Main results

* `Builder.maintains_runConversion`, `Builder.maintains_convert`: conversions keep it.
* `Builder.maintains_buildBlocks`: building blocks keeps it.
-/

namespace Codegen.Builder

open Codegen.EStateM (Maintains maintains_pure maintains_throw maintains_set maintains_modify
  maintains_get_bind)

variable {ω : Type} {conv : Converter ω} {src : Source} {P : Builder ω → Prop}

/-- A property that does not depend on the graph. -/
def Graphless (P : Builder ω → Prop) : Prop :=
  ∀ (s : Builder ω) (g : Graph ω), P s → P { s with graph := g }

/-- A property that does not depend on the graph and on the block that is being built, and that
stays true when a conversion begins and when it ends. -/
structure Lasting (conv : Converter ω) (src : Source) (P : Builder ω → Prop) : Prop where
  graph : ∀ {s : Builder ω} (g : Graph ω), P s → P { s with graph := g }
  current : ∀ {s : Builder ω} (b : BlockId), P s → P { s with current := b }
  begun : ∀ {s : Builder ω} (i : InstrId), P s → P (s.remembered i .inProgress)
  ended : ∀ {s t u : Builder ω} {visit : InstrId → Build ω NodeRef} {i : InstrId}
    {result : Conversion.Result}, P s →
      runConversion src visit (conv src s.context i) t = .ok result u → P u →
        P (u.remembered i (.converted result))

theorem Lasting.graphless (hP : Lasting conv src P) : Graphless P := fun _ g hs => hP.graph g hs

/-! ### Nodes -/

theorem maintains_push (hP : Graphless P) (node : Node ω) : Maintains P (push node) :=
  fun s hs => hP s _ hs

theorem maintains_checkLimit : Maintains P (checkLimit : Build ω Unit) :=
  maintains_get_bind fun _ _ => .ite (maintains_throw _) (maintains_pure _)

theorem maintains_make (hP : Graphless P) (payload : Payload ω) (args : List NodeRef) :
    Maintains P (make payload args) :=
  maintains_checkLimit.bind fun _ => maintains_get_bind fun _ _ => maintains_push hP _

theorem maintains_makeBlock (hP : Graphless P) (b : BlockId) :
    Maintains P (makeBlock b : Build ω NodeId) :=
  maintains_checkLimit.bind fun _ => maintains_get_bind fun _ _ =>
    (maintains_lift _).bind fun _ => maintains_push hP _

theorem maintains_makeLeaf (hP : Graphless P) (v : ValueId) :
    Maintains P (makeLeaf src v : Build ω NodeId) :=
  maintains_get_bind fun _ _ => (maintains_lift _).bind fun _ => maintains_make hP _ _

/-! ### Conversions -/

theorem maintains_runConversion (hP : Lasting conv src P) {α : Type}
    {visit : InstrId → Build ω NodeRef} (hvisit : ∀ i, Maintains P (visit i))
    (c : Conversion ω α) : Maintains P (runConversion src visit c) := by
  induction c with
  | done a => exact maintains_pure a
  | stop e => exact maintains_throw e
  | inst op args next ih => exact (maintains_make hP.graphless _ _).bind ih
  | imm x bits next ih => exact (maintains_make hP.graphless _ _).bind ih
  | vreg r next ih => exact (maintains_make hP.graphless _ _).bind ih
  | slot m next ih => exact (maintains_make hP.graphless _ _).bind ih
  | block b next ih => exact (maintains_makeBlock hP.graphless b).bind ih
  | leaf v next ih => exact (maintains_makeLeaf hP.graphless v).bind ih
  | operand v next ih =>
    rw [runConversion]
    refine maintains_get_bind fun s _ => (maintains_lift _).bind fun j? => ?_
    cases j? with
    | some j => exact (hvisit j).bind ih
    | none => exact (maintains_makeLeaf hP.graphless v).bind fun n => ih (some n)

theorem maintains_memoOf (i : InstrId) : Maintains P (memoOf i : Build ω Memo) := by
  refine maintains_get_bind fun s _ => ?_
  cases s.memo[i]? with
  | none => exact maintains_throw _
  | some m => exact maintains_pure m

theorem maintains_convert (hP : Lasting conv src P) (fuel : Nat) (i : InstrId) :
    Maintains P (convert conv src fuel i) := by
  induction fuel generalizing i with
  | zero => exact maintains_throw _
  | succ fuel ih =>
    refine (maintains_memoOf i).bind fun m => ?_
    cases m with
    | converted r => exact maintains_pure _
    | inProgress => exact maintains_throw _
    | unseen =>
      refine .bind (maintains_modify fun s hs => hP.begun i hs) fun _ =>
        maintains_get_bind fun s hs t ht => ?_
      exact EStateM.after_bind P (maintains_runConversion hP ih _ t ht) fun result u hrun hu =>
        hP.ended hs hrun hu

theorem maintains_prepend (hP : Graphless P) (i : InstrId) (head r : NodeRef) :
    Maintains P (prepend i head r : Build ω NodeRef) := by
  refine maintains_get_bind fun s hs => (maintains_lift _).bind fun node => ?_
  refine .ite ((maintains_throw _).bind fun _ => ?_) ?_
  all_goals
    refine .ite ((maintains_throw _).bind fun _ => ?_) ?_
    all_goals
      exact .bind (maintains_set (hP s _ hs)) fun _ => maintains_pure r

theorem maintains_chainOf (i : InstrId) : Maintains P (chainOf i : Build ω (List NodeRef)) :=
  (maintains_memoOf i).bind fun m => by cases m <;> exact maintains_pure _

/-! ### Blocks -/

/-- What is left when an instruction has been converted is not changed by chaining its nodes. -/
theorem after_buildInstr (hP : Graphless P) {tail : Tail} {i : InstrId} {s : Builder ω}
    (h : P (EStateM.after (convert conv src (src.func.instrs.size + 1) i) s)) :
    P (EStateM.after (buildInstr conv src tail i) s) := by
  refine EStateM.after_bind P h fun _ t _ ht => ?_
  refine (maintains_chainOf i).bind (fun chain => ?_) t ht
  refine (maintains_lift _).bind fun ins => .ite ((maintains_throw _).bind fun _ => ?_) ?_
  all_goals
    exact (Maintains.foldlM (maintains_prepend hP i) _ _).bind fun head =>
      .ite (maintains_pure _) (maintains_pure _)

theorem maintains_buildInstr (hP : Lasting conv src P) (tail : Tail) (i : InstrId) :
    Maintains P (buildInstr conv src tail i) :=
  fun s hs => after_buildInstr hP.graphless (maintains_convert hP _ i s hs)

theorem maintains_buildBlock (hP : Lasting conv src P) (b : BlockId) (blk : Block) :
    Maintains P (buildBlock conv src b blk) := by
  refine .bind (maintains_modify fun s hs => hP.current b hs) fun _ =>
    (maintains_push hP.graphless _).bind fun root => ?_
  refine .bind (maintains_modify fun s hs => hP.graph _ hs) fun _ => ?_
  exact (Maintains.foldlM (maintains_buildInstr hP) _ _).bind fun _ =>
    maintains_modify fun s hs => hP.graph _ hs

theorem maintains_buildBlocks (hP : Lasting conv src P) (blocks : List (BlockId × Block)) :
    Maintains P (buildBlocks conv src blocks) := by
  induction blocks with
  | nil => exact maintains_pure _
  | cons blk blocks ih => exact ((maintains_buildBlock hP _ _).atPlace _).bind fun _ => ih

end Codegen.Builder
