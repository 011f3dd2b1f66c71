import Codegen.Proofs.Invocations
import Codegen.Proofs.Leaves
import Codegen.Proofs.Requests

/-!
# Operands that depend on each other

The conversion of an instruction needs the nodes of the instructions of its block whose results it
reads. A phi needs none of them, and neither does whoever reads the address of a piece of the stack.
The conversions that are in progress at some time need each other one after the other, so that an
instruction that is needed while it is in progress needs itself. The other way round, what an
instruction needs has been converted when its own conversion ends. A builder that comes to the end
has thereby put the instructions in an order in which none comes before what it needs.

## Main definitions

* `Func.Depends`: an instruction needs the result of another one in its block.
* `EStateM.Concludes`: what a run ends with, and what it may stop with.
* `X86.Converting`: a builder inside some conversions.

## Main results

* `X86.Converted.exists_memo`: what an instruction needs is converted before it.
* `X86.concludes_convert`: an instruction that is needed while it is in progress needs itself.
* `X86.build_detects_cycles`: a graph is built only if no instruction needs itself, and the error
  that operands depend on each other is reported only if one does.
-/

namespace Codegen

open Relation (TransGen)

namespace Func

variable {f : Func} {i j : InstrId}

/-- Instruction `i` needs the result of instruction `j` in its block: it is no phi and reads it, and
the result is not the address of a piece of the stack. -/
def Depends (f : Func) (i j : InstrId) : Prop :=
  ∃ b op v, f.blockOf i = some b ∧ f.blockOf j = some b ∧ f.opOf i = some op ∧ op.isPhi = false ∧
    v ∈ op.args ∧ f.values[v]? = some (.result j) ∧ f.isAlloca j = false

/-- Some instruction needs its own result, through any number of others. -/
def Cyclic (f : Func) : Prop := ∃ i, TransGen f.Depends i i

/-- No endless sequence of instructions each of which needs the next one starts here. -/
def Grounded (f : Func) (i : InstrId) : Prop := Acc (fun j i => f.Depends i j) i

theorem Grounded.not_transGen (h : f.Grounded i) : ¬TransGen f.Depends i i := by
  induction h with
  | intro i _ ih =>
    intro hcycle
    obtain ⟨j, hij, hji⟩ := TransGen.head'_iff.1 hcycle
    exact ih j hij (.tail' hji hij)

end Func

/-! ### Runs and what they stop with -/

namespace EStateM

variable {ε σ α β : Type} {E : ε → Prop} {Q : α → σ → Prop} {R : β → σ → Prop}

/-- A run that ends with an answer and a state as `Q` says, or stops with an error that `E` allows.
-/
def Concludes (E : ε → Prop) (Q : α → σ → Prop) : EStateM.Result ε σ α → Prop
  | .ok a t => Q a t
  | .error e _ => E e

theorem Concludes.bind {x : EStateM ε σ α} {f : α → EStateM ε σ β} {s : σ}
    (hx : Concludes E Q (x s)) (hf : ∀ a t, Q a t → Concludes E R (f a t)) :
    Concludes E R ((x >>= f) s) := by
  simp only [Bind.bind, EStateM.bind]
  cases h : x s with
  | ok a t =>
    rw [h] at hx
    exact hf a t hx
  | error e t =>
    rw [h] at hx
    exact hx

theorem concludes_foldlM {f : β → α → EStateM ε σ β} {P : σ → Prop} {l : List α}
    (hf : ∀ b, ∀ a ∈ l, ∀ s, P s → Concludes E (fun _ => P) (f b a s)) {b : β} {s : σ} (hs : P s) :
    Concludes E (fun _ => P) (l.foldlM f b s) := by
  induction l generalizing b s with
  | nil => exact hs
  | cons a l ih =>
    obtain ⟨ha, hl⟩ := List.forall_mem_cons.1 fun a ha b => hf b a ha
    rw [List.foldlM_cons]
    exact (ha b s hs).bind fun b' t ht => ih (fun b a ha => hl a ha b) ht

end EStateM

open Codegen.EStateM (Concludes)

/-- An error is justified if it does not say that operands depend on each other, or they do. -/
def Justified (f : Func) (e : Stop) : Prop := e.isCycle = true → f.Cyclic

theorem justified_of_plain {f : Func} {e : Stop} (h : e.isCycle = false) : Justified f e :=
  fun hcycle => absurd (h.symm.trans hcycle) Bool.false_ne_true

theorem Plainly.concludes {σ α : Type} {f : Func} {x : EStateM Stop σ α} {s : σ} {Q : α → σ → Prop}
    (hx : Plainly x) (hQ : ∀ a t, x s = .ok a t → Q a t) : Concludes (Justified f) Q (x s) := by
  cases h : x s with
  | ok a t => exact hQ a t h
  | error e t => exact justified_of_plain (hx s e t h)

/-- What an operation keeps in any case holds at the end. -/
theorem Plainly.concludes_of_maintains {σ α : Type} {f : Func} {x : EStateM Stop σ α} {s : σ}
    {P : σ → Prop} (hx : Plainly x) (hP : EStateM.Maintains P x) (hs : P s) :
    Concludes (Justified f) (fun _ => P) (x s) :=
  hx.concludes fun _ _ h => EStateM.after_eq_of_ok h ▸ hP s hs

theorem concludes_atPlace {σ α : Type} {f : Func} {x : EStateM Stop σ α} {s : σ} {Q : α → σ → Prop}
    (place : Place) (hx : Concludes (Justified f) Q (x s)) :
    Concludes (Justified f) Q (atPlace place x s) := by
  unfold atPlace
  cases h : x s with
  | ok a t =>
    rw [h] at hx
    exact hx
  | error e t =>
    rw [h] at hx
    intro hcycle
    exact hx (by rwa [Stop.isCycle_within] at hcycle)

/-- Putting a node on a chain changes nothing else. -/
theorem Builder.grows_chained {ω : Type} (s : Builder ω) (n : NodeId) (head : NodeRef) :
    s.Grows (s.chained n head) := by
  refine ⟨rfl, ⟨rfl, rfl, fun {m node} hm => ?_⟩, id⟩
  rw [nodes_chained, hm]
  split
  · exact ⟨head, rfl⟩
  · exact ⟨node.chain, rfl⟩

namespace X86

variable {src : Source} {s t : Builder Opcode} {b : BlockId} {i j k : InstrId} {v : ValueId}
  {op : Operation} {result : Conversion.Result} {busy : InstrId → Prop} {room : Nat}

/-! ### What an instruction needs -/

/-- When a conversion has ended, so have those of the instructions that it needs. -/
theorem Converted.exists_memo (h : Converted src s b i op result) (hop : src.func.opOf i = some op)
    (hb : src.func.blockOf i = some b) (hdep : src.func.Depends i j) :
    ∃ result, s.memo[j]? = some (.converted result) := by
  obtain ⟨_, _, v, hb', hj, hop', hphi, hv, hvalue, ha⟩ := hdep
  cases hb.symm.trans hb'
  cases hop.symm.trans hop'
  have hdenotes {w : ValueId} {r : NodeRef} (hr : Denotes src s b w r) (hw : v = w) :
      ∃ result, s.memo[j]? = some (.converted result) := by
    subst hw
    obtain ⟨result, hm, -⟩ := hr.exists_memo hvalue hj
    exact ⟨result, hm⟩
  -- An address that is read belongs to a piece of the stack.
  have haddress {addr : ValueId} {k : InstrId} (haddr : src.func.values[addr]? = some (.result k))
      (hk : src.func.isAlloca k = true) (hw : v = addr) :
      ∃ result, s.memo[j]? = some (.converted result) := by
    subst hw
    cases hvalue.symm.trans haddr
    cases ha.symm.trans hk
  cases h with
  | alloca | br => simp [Operation.args] at hv
  | phi => cases hphi
  | load _ haddr hk _ _ => exact haddress haddr hk (by simpa [Operation.args] using hv)
  | store _ haddr hk _ hr _ =>
    rcases List.mem_pair.1 hv with hw | hw
    · exact hdenotes hr hw
    · exact haddress haddr hk hw
  | binary _ _ hr hq _ =>
    rcases List.mem_pair.1 hv with hw | hw
    · exact hdenotes hr hw
    · exact hdenotes hq hw
  | @icmp _ _ _ _ cmp _ _ _ _ hcmp hr hq _ =>
    have hw : v = cmp.x ∨ v = cmp.y := by
      cases (comparison_eq_ok hcmp).2
      · exact List.mem_pair.1 hv
      · exact (List.mem_pair.1 hv).symm
    rcases hw with hw | hw
    · exact hdenotes hr hw
    · exact hdenotes hq hw
  | condBr hcond _ _ _ hresult _ _ _ _ _ =>
    obtain rfl : v = _ := by simpa [Operation.args] using hv
    cases hvalue.symm.trans hcond
    exact ⟨_, hresult⟩
  | ret _ hr _ => exact hdenotes hr (by simpa [Operation.args] using hv)

/-! ### Inside a conversion -/

/-- A builder for block `b` in which only conversions of the instructions `busy` are in progress and
fewer than `room` have not begun. What was converted is grounded. -/
structure Converting (src : Source) (b : BlockId) (busy : InstrId → Prop) (room : Nat)
    (s : Builder Opcode) : Prop where
  sound : Sound src s
  current : s.current = b
  busy : ∀ {j : InstrId}, s.memo[j]? = some .inProgress → busy j
  grounded : ∀ {j : InstrId} {result : Conversion.Result}, s.memo[j]? = some (.converted result) →
    src.func.Grounded j
  room : s.unseen.card < room

/-- Nodes may be made and chained, and another block may be begun. -/
theorem Converting.grow (h : Converting src b busy room s) {c : BlockId} (hg : s.Grows t)
    (hmemo : t.memo = s.memo) (hc : t.current = c) : Converting src c busy room t := by
  refine ⟨h.sound.grow hg fun hm => hmemo ▸ hm, hc, fun hm => h.busy (hmemo ▸ hm),
    fun hm => h.grounded (hmemo ▸ hm), ?_⟩
  have hroom := h.room
  rwa [Builder.unseen, ← hmemo] at hroom

theorem Converting.added (h : Converting src b busy room s) (node : Node Opcode) :
    Converting src b busy room (s.added node) :=
  h.grow (h.sound.added node).keeps.toGrows rfl h.current

/-- Beginning a conversion. -/
theorem Converting.begun (h : Converting src b busy (room + 1) s)
    (hm : s.memo[i]? = some .unseen) :
    Converting src b (fun j => busy j ∨ j = i) room (s.remembered i .inProgress) := by
  have hlt : i < s.memo.size := (Array.getElem?_eq_some_iff.1 hm).1
  refine ⟨h.sound.begun hm, h.current, fun {j} hj => ?_, fun {j result} hj => ?_, ?_⟩
  · rw [Builder.memo_remembered hlt] at hj
    split at hj
    · next hij => exact .inr hij.symm
    · exact .inl (h.busy hj)
  · rw [Builder.memo_remembered hlt] at hj
    split at hj
    · cases hj
    · exact h.grounded hj
  · exact Nat.lt_of_lt_of_le (Builder.card_unseen_begun hm) (Nat.lt_succ_iff.1 h.room)

/-- Ending a conversion. What the instruction needs has been converted by then. -/
theorem Converting.ended (h : Converting src b (fun j => busy j ∨ j = i) room t)
    (hbusy : t.memo[i]? = some .inProgress)
    (hsound : Sound src (t.remembered i (.converted result)))
    (hneeds : ∀ j, src.func.Depends i j → ∃ result, t.memo[j]? = some (.converted result)) :
    Converting src b busy (room + 1) (t.remembered i (.converted result)) := by
  have hlt : i < t.memo.size := (Array.getElem?_eq_some_iff.1 hbusy).1
  refine ⟨hsound, h.current, fun {j} hj => ?_, fun {j result'} hj => ?_, ?_⟩
  · rw [Builder.memo_remembered hlt] at hj
    split at hj
    · cases hj
    · next hij => exact (h.busy hj).resolve_right fun hji => hij hji.symm
  · rw [Builder.memo_remembered hlt] at hj
    split at hj
    · next hij =>
      subst hij
      refine .intro i fun k hk => ?_
      obtain ⟨result, hm⟩ := hneeds k hk
      exact h.grounded hm
    · exact h.grounded hj
  · rw [Builder.unseen_ended]
    exact Nat.lt_succ_of_lt (Nat.lt_of_le_of_lt (Finset.card_erase_le) h.room)

/-- The instruction that has to be converted for an operand is needed. -/
theorem depends_of_producer? (hcon : src.func.Coherent) (hs : Sound src s)
    (hi : src.func.blockOf i = some s.current) (hv : Reads src.func i v)
    (h : Builder.producer? src s.context s.current v = .ok (some k)) :
    src.func.Depends i k ∧ src.func.blockOf k = some s.current := by
  obtain ⟨op, hop, hphi, hv⟩ := hv
  have hin : i ∈ src.func.inserted := Func.mem_inserted.2 ⟨_, hcon.mem_instrsOf.2 hi⟩
  have hlt := Func.operandsExist_of_users hs.ready.users i hin op hop v hv
  have hx := Array.getElem?_eq_getElem hlt
  have hslot : s.context.slot? v = none := by
    cases hslot : s.context.slot? v with
    | none => rfl
    | some sl => simp [Builder.producer?, hslot, Except.pure_eq_ok] at h
  obtain ⟨hresult, hk, hblock⟩ := (producer?_eq_ok hcon hs.ready hx hslot h).1 k rfl
  rw [hresult] at hx
  exact ⟨⟨_, op, v, hi, hblock, hop, hphi, hv, hx,
    isAlloca_of_slot?_eq_none hs.ready hslot hx hk⟩, hblock⟩

/-- Making a node. -/
theorem Converting.concludes_added (hs : Converting src b busy room s)
    {x : Builder.Build Opcode NodeId} (hx : Plainly x)
    (hadded : ∀ n t, x s = .ok n t → ∃ node, t = s.added node) :
    Concludes (Justified src.func) (fun _ => Converting src b busy room) (x s) := by
  refine hx.concludes fun n t h => ?_
  obtain ⟨node, rfl⟩ := hadded n t h
  exact hs.added node

theorem Converting.concludes_make (hs : Converting src b busy room s) (payload : Payload Opcode)
    (args : List NodeRef) :
    Concludes (Justified src.func) (fun _ => Converting src b busy room)
      (Builder.make payload args s) :=
  hs.concludes_added (Builder.plainly_make payload args) fun _ _ h => ⟨_, (Builder.make_eq_ok h).2⟩

theorem Converting.concludes_makeLeaf (hs : Converting src b busy room s) (v : ValueId) :
    Concludes (Justified src.func) (fun _ => Converting src b busy room)
      (Builder.makeLeaf src v s) := by
  refine hs.concludes_added (Builder.plainly_makeLeaf v) fun n t h => ?_
  obtain ⟨payload, -, -, ht⟩ := Builder.makeLeaf_eq_ok h
  exact ⟨_, ht⟩

theorem Converting.concludes_makeBlock (hs : Converting src b busy room s) (c : BlockId) :
    Concludes (Justified src.func) (fun _ => Converting src b busy room)
      (Builder.makeBlock c s) := by
  refine hs.concludes_added (Builder.plainly_makeBlock c) fun n t h => ?_
  obtain ⟨l, -, -, ht⟩ := Builder.makeBlock_eq_ok h
  exact ⟨_, ht⟩

/-- A run of a conversion, if the instructions that are needed are converted as they should. -/
theorem concludes_run (hcon : src.func.Coherent) {α : Type} {P : α → Prop}
    {visit : InstrId → Builder.Build Opcode NodeRef}
    (hvisit : ∀ k s, src.func.Depends i k → src.func.blockOf k = some b →
      Converting src b busy room s →
        Concludes (Justified src.func) (fun _ => Converting src b busy room) (visit k s))
    (hi : src.func.blockOf i = some b) {c : Conversion Opcode α}
    (hc : c.Asks (Reads src.func i) P) (hs : Converting src b busy room s) :
    Concludes (Justified src.func) (fun _ => Converting src b busy room)
      (Builder.runConversion src visit c s) := by
  induction c generalizing s with
  | done a => exact hs
  | stop e => exact justified_of_plain hc
  | inst op args next ih | imm x bits next ih | vreg r next ih | slot m next ih =>
    exact (hs.concludes_make _ _).bind fun n t ht => ih n (hc n) ht
  | block c next ih => exact (hs.concludes_makeBlock c).bind fun n t ht => ih n (hc n) ht
  | leaf v next ih => exact (hs.concludes_makeLeaf v).bind fun n t ht => ih n (hc n) ht
  | operand v next ih =>
    obtain ⟨hv, hc⟩ := hc
    rw [Builder.runConversion]
    change Concludes _ _ (((liftM (Builder.producer? src s.context s.current v) :
      Builder.Build Opcode _) >>= _) s)
    refine ((Builder.plain_producer? s.context s.current v).lift.concludes (Q := fun p t =>
      Builder.producer? src s.context s.current v = .ok p ∧ s = t)
      fun p t hp => liftStop_eq_ok.1 hp).bind ?_
    rintro p _ ⟨hp, rfl⟩
    cases p with
    | some k =>
      obtain ⟨hdep, hk⟩ := depends_of_producer? hcon hs.sound (hs.current ▸ hi) hv hp
      exact (hvisit k s hdep (hs.current ▸ hk) hs).bind fun r t ht => ih r (hc r) ht
    | none =>
      exact (hs.concludes_makeLeaf v).bind fun n t ht => ih (some n) (hc (some n)) ht

/-- Converting an instruction that the conversions in progress need. If it is in progress itself, it
needs its own result. -/
theorem concludes_convert (hcon : src.func.Coherent) (fuel : Nat) (hi : src.func.blockOf i = some b)
    (hneeded : ∀ j, busy j → TransGen src.func.Depends j i)
    (hs : Converting src b busy fuel s) :
    Concludes (Justified src.func) (fun _ => Converting src b busy fuel)
      (Builder.convert converter src fuel i s) := by
  induction fuel generalizing i busy s with
  | zero => exact absurd hs.room (Nat.not_lt_zero _)
  | succ fuel ih =>
    by_cases hm : s.memo[i]? = some .unseen
    · have hbegun := hs.begun hm
      rw [Builder.convert_of_unseen hm]
      have hrun := concludes_run hcon (fun k s hdep hk hs => ih hk (fun j hj => ?_) hs) hi
        (asks_converter src s.context i) hbegun
      · simp only [bind, EStateM.bind]
        cases hresult : Builder.runConversion src (Builder.convert converter src fuel)
            (converter src s.context i) (s.remembered i .inProgress) with
        | error e t =>
          rw [hresult] at hrun
          exact hrun
        | ok result t =>
          rw [hresult] at hrun
          have hb : src.func.blockOf i = some (s.remembered i .inProgress).current :=
            hbegun.current ▸ hi
          obtain ⟨op, hop, hends⟩ :=
            converter_eq_ok hcon (visits_convert hcon fuel) hbegun.sound hb hresult
          have hbusy : t.memo[i]? = some .inProgress := by
            apply hends.reaches.keeps.busy
            rw [Builder.memo_remembered (Array.getElem?_eq_some_iff.1 hm).1, if_pos rfl]
          exact hrun.ended hbusy (hends.sound hb hop hbusy) fun j hj =>
            hends.converted.exists_memo hop hb hj
      · rcases hj with hj | rfl
        · exact (hneeded j hj).tail hdep
        · exact .single hdep
    · rw [Builder.convert]
      refine ((Builder.plainly_memoOf i).concludes (Q := fun m t => s.memo[i]? = some m ∧ s = t)
        fun m t hmemo => Builder.memoOf_eq_ok.1 hmemo).bind ?_
      rintro m _ ⟨hm', rfl⟩
      cases m with
      | unseen => exact absurd hm' hm
      | inProgress => exact fun _ => ⟨i, hneeded i (hs.busy hm')⟩
      | converted r => exact hs

/-! ### Blocks and functions -/

/-- A builder for block `b` with no conversion in progress. -/
abbrev Resting (src : Source) (b : BlockId) (s : Builder Opcode) : Prop :=
  Converting src b (fun _ => False) (src.func.instrs.size + 1) s

theorem concludes_buildInstr (hcon : src.func.Coherent) (hi : src.func.blockOf i = some b)
    (hs : Resting src b s) (tail : Builder.Tail) :
    Concludes (Justified src.func) (fun _ => Resting src b)
      (Builder.buildInstr converter src tail i s) := by
  refine (concludes_convert hcon _ hi (fun _ h => h.elim) hs).bind fun _ t ht => ?_
  have hprepend (head r : NodeRef) (s : Builder Opcode) (hs : Resting src b s) :
      Concludes (Justified src.func) (fun _ => Resting src b) (Builder.prepend i head r s) := by
    refine (Builder.plainly_prepend i head r).concludes fun r' t hrun => ?_
    obtain ⟨n, node, -, -, -, -, rfl⟩ := Builder.prepend_eq_ok hrun
    exact hs.grow (Builder.grows_chained s n head) rfl hs.current
  refine ((Builder.plainly_chainOf i).concludes_of_maintains (Builder.maintains_chainOf i) ht).bind
    fun chain u hu => ?_
  refine ((plain_lift _).lift.concludes_of_maintains (maintains_lift _) hu).bind fun ins u hu => ?_
  split
  · exact justified_of_plain rfl
  · refine (EStateM.concludes_foldlM (fun head r _ => hprepend head r) hu).bind fun head w hw => ?_
    split <;> exact hw

theorem concludes_buildBlock (hcon : src.func.Coherent) {blk : Block}
    (hb : src.func.blocks[b]? = some blk) {c : BlockId} (hs : Resting src c s) :
    Concludes (Justified src.func) (fun _ => Resting src b)
      (Builder.buildBlock converter src b blk s) := by
  have hopened : Resting src b (s.opened b) :=
    hs.grow (Builder.passes_opened s b).toGrows rfl rfl
  have hinstrs (tail : Builder.Tail) : Concludes (Justified src.func) (fun _ => Resting src b)
      (blk.instrs.reverse.foldlM (Builder.buildInstr converter src) tail (s.opened b)) := by
    refine EStateM.concludes_foldlM
      (fun tail i hi t ht => concludes_buildInstr hcon ?_ ht tail) hopened
    exact hcon.mem_instrsOf.1 (Func.instrs_eq_instrsOf hb ▸ List.mem_reverse.1 hi)
  change Concludes _ _ ((blk.instrs.reverse.foldlM (Builder.buildInstr converter src) {} >>= _)
    (s.opened b))
  refine (hinstrs {}).bind fun tail t ht => ?_
  exact ht.grow ((Builder.grows_chained t s.graph.nodes.size tail.head).trans
    (Builder.passes_updateBlock _ b _).toGrows) rfl ht.current

theorem concludes_buildBlocks (hcon : src.func.Coherent) {blks : List (BlockId × Block)}
    (hblks : ∀ blk ∈ blks, src.func.blocks[blk.1]? = some blk.2)
    (hs : ∃ b, Resting src b s) :
    Concludes (Justified src.func) (fun _ t => ∃ b, Resting src b t)
      (Builder.buildBlocks converter src blks s) := by
  induction blks generalizing s with
  | nil => exact hs
  | cons blk blks ih =>
    obtain ⟨b, blk⟩ := blk
    obtain ⟨hb, hblks⟩ := List.forall_mem_cons.1 hblks
    obtain ⟨c, hs⟩ := hs
    exact (concludes_atPlace _ (concludes_buildBlock hcon hb hs)).bind fun _ t ht =>
      ih hblks ⟨b, ht⟩

theorem concludes_start (hcon : src.func.Coherent) (s : Builder Opcode) :
    Concludes (Justified src.func) (fun _ t => ∃ b, Resting src b t) (Builder.start src s) := by
  have hplain : Plainly (Builder.start src : Builder.Build Opcode Unit) := by
    intro s e t h
    unfold Builder.start at h
    split at h
    · cases h
      rfl
    · split at h
      · cases h
        rfl
      · cases h
  refine hplain.concludes fun _ t hstart => ⟨t.current, ?_⟩
  obtain ⟨hbetween, -⟩ := startBuilder_eq_ok hcon hstart
  obtain ⟨-, -, hmemo⟩ := Builder.start_eq_ok hstart
  refine ⟨hbetween.sound, rfl, fun hj => ?_, fun hj => ?_, ?_⟩
  · simp [hmemo, Array.getElem?_replicate] at hj
  · simp [hmemo, Array.getElem?_replicate] at hj
  · have hle := t.card_unseen_le
    rw [hmemo, Array.size_replicate] at hle
    exact Nat.lt_succ_of_le hle

/-- What is converted at the end is grounded, and an error is justified. -/
theorem concludes_build (hcon : src.func.Coherent) (s : Builder Opcode) :
    Concludes (Justified src.func)
      (fun _ t => ∀ j result, t.memo[j]? = some (.converted result) → src.func.Grounded j)
      (Builder.build converter src s) := by
  have hgraph : Concludes (Justified src.func) (fun _ t => ∃ b, Resting src b t)
      (Builder.buildGraph converter src s) := by
    refine (concludes_start hcon s).bind fun _ t ht => ?_
    exact (concludes_buildBlocks hcon (fun _ => Func.mem_layout.1) ht).bind fun _ u hu => hu
  unfold Builder.build EStateM.run
  cases h : Builder.buildGraph converter src s with
  | ok g t =>
    rw [h] at hgraph
    obtain ⟨b, ht⟩ := hgraph
    exact fun j result hj => ht.grounded hj
  | error e t =>
    rw [h] at hgraph
    exact hgraph

/-- A function that counts down in a block of its own: the phi reads the difference, and the
difference reads the phi. -/
def spinning : Source where
  types := Func.sampleTypes
  func := (Func.sampleStart.assemble [(0, 2), (1, 2)]
    [[.br 1], [.phi 2 [(1, 0), (6, 1)], .binary .sub 2 5 3, .icmp .eq 3 6 2, .condBr 7 2 1],
      [.ret (some 6)]]).getD Func.sampleStart

theorem built_spinning : spinning.func.Built := by
  simpa only [spinning] using Func.built_assembled _ _

/-- A function with a sum and a difference that read each other. -/
def tangled : Source where
  types := Func.sampleTypes
  func := (Func.sampleStart.assemble []
    [[.binary .add 2 3 1, .binary .sub 2 2 1, .ret (some 3)]]).getD Func.sampleStart

theorem built_tangled : tangled.func.Built := by
  simpa only [tangled] using Func.built_assembled _ _

end X86

end Codegen
